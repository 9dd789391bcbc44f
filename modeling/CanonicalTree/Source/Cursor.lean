import CanonicalTree.Source.Location

/-!
# Cursors

Looking up many offsets one by one would read the source again for each of them. A cursor remembers
how far the source has been scanned, where the lines found so far start, and the last column that
was counted, so that looking up offsets in order reads every byte about once. What it answers does
not depend on what it was asked before.
-/

namespace CanonicalTree

/-- A column that has been counted: from the start of its line up to an offset. -/
structure ColumnMark where
  lineStart : Nat
  offset : Nat
  columns : Nat
  deriving DecidableEq

/-- What is known of a source. -/
structure Cursor where
  /-- How far the source has been searched for line ends. -/
  scanned : Nat := 0
  /-- Where the lines found so far start, in order. -/
  starts : Array Nat := #[0]
  /-- The column that was counted last. -/
  mark : Option ColumnMark := none

namespace Cursor

/-- Where lines start in `units`, which begin at `offset`: just behind every line end. -/
def lineStarts (width offset : Nat) : List Nat → List Nat
  | [] => []
  | unit :: rest =>
    let next := offset + width
    if unit = Source.lineEnd then next :: lineStarts width next rest
    else lineStarts width next rest

/-- Search for line ends up to `offset`. -/
def scanTo (source : Source) (cursor : Cursor) (offset : Nat) : Cursor :=
  if offset ≤ cursor.scanned then cursor
  else
    { cursor with
      scanned := offset
      starts := cursor.starts ++ lineStarts source.encoding.unitWidth cursor.scanned
        (source.units cursor.scanned offset) }

/-- The number of lines that start up to an offset. -/
def startsUpTo (cursor : Cursor) (offset : Nat) : Nat :=
  (cursor.starts.toList.takeWhile (· ≤ offset)).length

/-- The index of the line of an offset that has been scanned. Sources are read in order, so most
often it is the last line; otherwise the starts are searched. -/
def lineIndex (cursor : Cursor) (offset : Nat) : Nat :=
  match cursor.starts.back? with
  | some last =>
    if last ≤ offset then cursor.starts.size - 1 else cursor.startsUpTo offset - 1
  | none => cursor.startsUpTo offset - 1

/-- The start of the line with the given index. -/
def lineStart (cursor : Cursor) (index : Nat) : Nat :=
  cursor.starts[index]?.getD 0

/-- The number of columns from the start of a line up to an offset, counted on from the mark if
possible. -/
def columns (source : Source) (unit : ColumnUnit) (cursor : Cursor) (lineStart offset : Nat) :
    Nat :=
  match cursor.mark with
  | some mark =>
    if mark.lineStart = lineStart ∧ mark.offset ≤ offset then
      mark.columns + unit.count source.encoding (source.slice mark.offset offset)
    else unit.count source.encoding (source.slice lineStart offset)
  | none => unit.count source.encoding (source.slice lineStart offset)

/-- The location of an offset, and what is known afterwards. -/
def locate (source : Source) (unit : ColumnUnit) (field : String) (cursor : Cursor) (offset : Nat) :
    Except Failure Location × Cursor :=
  match source.check field offset with
  | .error failure => (.error failure, cursor)
  | .ok () =>
    let cursor := cursor.scanTo source offset
    let index := cursor.lineIndex offset
    let lineStart := cursor.lineStart index
    let columns := cursor.columns source unit lineStart offset
    let mark : ColumnMark := ⟨lineStart, offset, columns⟩
    (.ok (Location.ofCounts index columns), { cursor with mark := some mark })

end Cursor

end CanonicalTree
