import CanonicalTree.Json.Token

/-!
# Strings of the system

Arguments and the names of files are strings of the system: rows of bytes, which need not be valid
UTF-8. Where one is shown, every row of bytes that begins a character and is cut short, and every
other byte that is no part of a character, is shown as the replacement character.
-/

namespace CanonicalTree.Cli

/-- A string as the system hands it over. -/
abbrev SystemString := Bytes

namespace SystemString

/-- The string of the system for a text. -/
def ofText (text : String) : SystemString :=
  text.toUTF8.data

/-- What is shown for bytes that are no character. -/
def replacement : Char := Char.ofNat 0xFFFD

/-- From which ranges the bytes are taken that complete a character with this first byte. -/
def followers (first : UInt8) : List (UInt8 × UInt8) :=
  let any := (0x80, 0xBF)
  if first < 0xC2 then []
  else if first < 0xE0 then [any]
  else if first = 0xE0 then [(0xA0, 0xBF), any]
  else if first = 0xED then [(0x80, 0x9F), any]
  else if first < 0xF0 then [any, any]
  else if first = 0xF0 then [(0x90, 0xBF), any, any]
  else if first < 0xF4 then [any, any, any]
  else if first = 0xF4 then [(0x80, 0x8F), any, any]
  else []

/-- How many bytes are taken from the ranges, one from each in turn. -/
def fitting : List (UInt8 × UInt8) → List UInt8 → Nat
  | (low, high) :: ranges, b :: rest =>
    if low ≤ b && b ≤ high then fitting ranges rest + 1 else 0
  | _, _ => 0

/-- The characters that are shown for a row of bytes, the first `skip` of which have been taken care
of. -/
def characters (skip : Nat) : List UInt8 → List Char
  | [] => []
  | b :: rest =>
    match skip with
    | skip + 1 => characters skip rest
    | 0 =>
      match (ByteArray.mk (b :: rest).toArray).utf8DecodeChar? 0 with
      | some c => c :: characters (c.utf8Size - 1) rest
      | none => replacement :: characters (fitting (followers b) rest) rest

/-- The text that is shown for a string of the system. -/
def display (string : SystemString) : String :=
  String.ofList (characters 0 string.toList)

end SystemString

end CanonicalTree.Cli
