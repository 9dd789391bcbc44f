import CanonicalTree.Json.Token

/-!
# Encodings and column units

A source is a buffer of bytes in one of three encodings. Reading it takes no more than its code
units: a line ends after the unit `0x0A`, and a character starts at every unit that does not
continue one. Nothing here requires the buffer to be valid text.
-/

namespace CanonicalTree

/-- How a source encodes its text. -/
inductive Encoding where
  | utf8
  | utf16LE
  | utf16BE
  deriving DecidableEq

/-- What columns count. -/
inductive ColumnUnit where
  | byte
  | codeUnit
  | codePoint
  deriving DecidableEq

namespace Encoding

/-- All encodings. -/
def all : List Encoding := [.utf8, .utf16LE, .utf16BE]

/-- The name of an encoding. -/
def name : Encoding → String
  | .utf8 => "utf8"
  | .utf16LE => "utf16-le"
  | .utf16BE => "utf16-be"

/-- The encoding with the given name. -/
def ofName? (name : String) : Option Encoding :=
  all.find? (·.name = name)

/-- How many bytes a code unit takes. -/
def unitWidth : Encoding → Nat
  | .utf8 => 1
  | .utf16LE => 2
  | .utf16BE => 2

/-- The code units of a stretch of bytes; a byte that is left over is no unit. -/
def units : Encoding → List UInt8 → List Nat
  | .utf8, bytes => bytes.map UInt8.toNat
  | .utf16LE, low :: high :: rest => (high.toNat * 256 + low.toNat) :: units .utf16LE rest
  | .utf16BE, high :: low :: rest => (high.toNat * 256 + low.toNat) :: units .utf16BE rest
  | _, _ => []

/-- Whether a code unit starts a character: a continuation byte and the second unit of a surrogate
pair do not. -/
def startsCharacter : Encoding → Nat → Bool
  | .utf8, unit => !(0x80 ≤ unit && unit < 0xC0)
  | .utf16LE, unit => !(0xDC00 ≤ unit && unit < 0xE000)
  | .utf16BE, unit => !(0xDC00 ≤ unit && unit < 0xE000)

end Encoding

namespace ColumnUnit

/-- All column units. -/
def all : List ColumnUnit := [.byte, .codeUnit, .codePoint]

/-- The name of a column unit. -/
def name : ColumnUnit → String
  | .byte => "byte"
  | .codeUnit => "code-unit"
  | .codePoint => "code-point"

/-- The column unit with the given name. -/
def ofName? (name : String) : Option ColumnUnit :=
  all.find? (·.name = name)

/-- How many columns a stretch of bytes takes. -/
def count (unit : ColumnUnit) (encoding : Encoding) (bytes : List UInt8) : Nat :=
  match unit with
  | .byte => bytes.length
  | .codeUnit => (encoding.units bytes).length
  | .codePoint => ((encoding.units bytes).filter encoding.startsCharacter).length

end ColumnUnit

end CanonicalTree
