import CanonicalTree.Failure
import CanonicalTree.Source.Encoding

/-!
# Locations

The line and column of a byte offset. An offset is usable if it lies within the source and does not
split a code unit. Its line is one more than the number of line ends before it, and its column is
one more than the number of columns since the last of them; both stop at `2 ^ 32 - 1`.
-/

namespace CanonicalTree

/-- A source buffer with its encoding. -/
structure Source where
  /-- The content. -/
  bytes : Bytes
  /-- How the content is encoded. -/
  encoding : Encoding := .utf8

/-- A line and a column, both counted from one. -/
structure Location where
  line : UInt32
  column : UInt32
  deriving DecidableEq

namespace Location

/-- The location after `lines` line ends and `columns` further columns. -/
def ofCounts (lines columns : Nat) : Location :=
  ⟨UInt32.ofNat (min (lines + 1) (UInt32.size - 1)),
    UInt32.ofNat (min (columns + 1) (UInt32.size - 1))⟩

end Location

namespace Source

/-- The bytes from one offset up to another. -/
def slice (source : Source) (start stop : Nat) : List UInt8 :=
  (source.bytes.extract start stop).toList

/-- The code units from one offset up to another. -/
def units (source : Source) (start stop : Nat) : List Nat :=
  source.encoding.units (source.slice start stop)

/-- The code unit that ends a line. -/
def lineEnd : Nat := 0x0A

/-- Refuse an offset that lies behind the end of the source or splits a code unit. `field` names the
point whose offset it is. -/
def check (source : Source) (field : String) (offset : Nat) : Except Failure Unit :=
  if source.bytes.size < offset then .error (.here (.offsetOutOfRange offset source.bytes.size))
  else
    let width := source.encoding.unitWidth
    if offset % width = 0 then .ok ()
    else
      .error <| .here <| .invalidPosition .position field <|
        "offset " ++ toString offset ++ " splits a " ++ toString width ++ "-byte code unit"

/-- Where the line of a usable offset starts: just after the last line end before it. -/
def lineStart (source : Source) (offset : Nat) : Nat :=
  let onLine := (source.units 0 offset).reverse.takeWhile (· ≠ lineEnd)
  offset - source.encoding.unitWidth * onLine.length

/-- The location of an offset. -/
def locate (source : Source) (unit : ColumnUnit) (field : String) (offset : Nat) :
    Except Failure Location := do
  source.check field offset
  let lines := (source.units 0 offset).count lineEnd
  let columns := unit.count source.encoding (source.slice (source.lineStart offset) offset)
  pure (Location.ofCounts lines columns)

end Source

end CanonicalTree
