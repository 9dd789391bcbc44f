import CanonicalTree.Json.Basic
import CanonicalTree.Json.Outline

/-!
# Reading JSON

`Json.parse` reads a text as a value. On top of the grammar, which the outline settles, strings
must be valid UTF-8 in which escaped surrogates come in pairs, numbers must not be too large, and
records and sequences may be nested at most `maxDepth` deep. A name that occurs twice in a record
keeps its first place and its last value.
-/

namespace CanonicalTree.Json

/-- Why a text cannot be read. -/
inductive ReadFault where
  /-- The text breaks the grammar. -/
  | malformed
  /-- A string is not made of characters. -/
  | invalidText
  /-- A number is too large. -/
  | outOfRange
  /-- Records and sequences are nested too deeply. -/
  | tooDeep
  deriving DecidableEq

/-- How deeply records and sequences may be nested. -/
def maxDepth : Nat := 127

namespace Piece

/-- The first unit of a surrogate pair. -/
def isHigh (u : Nat) : Bool := 0xD800 ≤ u && u ≤ 0xDBFF

/-- The second unit of a surrogate pair. -/
def isLow (u : Nat) : Bool := 0xDC00 ≤ u && u ≤ 0xDFFF

/-- Append a character in UTF-8. -/
def pushChar (bytes : ByteArray) (code : Nat) : ByteArray :=
  (String.utf8EncodeChar (Char.ofNat code)).foldl ByteArray.push bytes

/-- Append pieces in UTF-8; `none` if a surrogate stands alone. -/
def bytes? (bytes : ByteArray) : List Piece → Option ByteArray
  | [] => some bytes
  | .byte b :: rest => bytes? (bytes.push b) rest
  | .unit high :: .unit low :: rest =>
    if isHigh high then
      if isLow low then
        bytes? (pushChar bytes (0x10000 + (high - 0xD800) * 0x400 + (low - 0xDC00))) rest
      else none
    else if isLow high then none
    else bytes? (pushChar bytes high) (.unit low :: rest)
  | .unit u :: rest =>
    if isHigh u || isLow u then none else bytes? (pushChar bytes u) rest

/-- The text that pieces spell. -/
def text (pieces : List Piece) : Except ReadFault String :=
  match (bytes? ByteArray.empty pieces).bind String.fromUTF8? with
  | some text => .ok text
  | none => .error .invalidText

end Piece

mutual

/-- The value of an outline whose nesting is at most `levels`. -/
def ofOutline (levels : Nat) : Outline → Except ReadFault Json
  | .null => .ok .null
  | .bool flag => .ok (.bool flag)
  | .number literal =>
    match Number.ofLiteral? literal with
    | some number => .ok (.num number)
    | none => .error .outOfRange
  | .string pieces => do
    let text ← Piece.text pieces
    pure (.str text)
  | .array items =>
    match levels with
    | 0 => .error .tooDeep
    | levels + 1 => do
      let values ← ofItems levels items
      pure (.arr values)
  | .object members =>
    match levels with
    | 0 => .error .tooDeep
    | levels + 1 => do
      let entries ← ofMembers levels members
      pure (.obj (Fields.collect entries))

/-- The values of the items of a sequence. -/
def ofItems (levels : Nat) : List Outline → Except ReadFault (List Json)
  | [] => .ok []
  | item :: rest => do
    let value ← ofOutline levels item
    let values ← ofItems levels rest
    pure (value :: values)

/-- The members of a record, repeated names included. -/
def ofMembers (levels : Nat) : List (List Piece × Outline) → Except ReadFault (List (String × Json))
  | [] => .ok []
  | (name, outline) :: rest => do
    let name ← Piece.text name
    let value ← ofOutline levels outline
    let entries ← ofMembers levels rest
    pure ((name, value) :: entries)

end

/-- The value of a text. -/
def parse (bytes : Bytes) : Except ReadFault Json :=
  match Outline.parse? bytes with
  | some outline => ofOutline maxDepth outline
  | none => .error .malformed

end CanonicalTree.Json
