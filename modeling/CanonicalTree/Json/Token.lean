import CanonicalTree.Decimal.Literal

/-!
# Lexemes of JSON text

`Token.scan?` cuts a byte buffer into lexemes in a single pass. It checks what every lexeme must
satisfy whether or not its value is wanted: the grammar of numbers, the known escapes, four
hexadecimal digits after `\u`, no raw control character inside a string. What a string means is
left open here: its bytes need not be valid UTF-8 and its escaped code units need not form
characters, so a lexeme keeps them as they stand.
-/

namespace CanonicalTree

/-- The content of a buffer or a file. -/
abbrev Bytes := Array UInt8

namespace Json

/-- A part of a string lexeme: a byte, or a code unit written as four hexadecimal digits. -/
inductive Piece where
  | byte (b : UInt8)
  | unit (u : Nat)
  deriving DecidableEq

/-- A lexeme. -/
inductive Token where
  | openArray
  | closeArray
  | openObject
  | closeObject
  | comma
  | colon
  | null
  | bool (flag : Bool)
  | number (literal : Decimal.Literal)
  | string (pieces : List Piece)
  deriving DecidableEq

namespace Token

/-- Where the scanner stands within a lexeme. What has been read of it is kept in reverse. -/
inductive Place where
  /-- Between two lexemes. -/
  | between
  /-- Inside a name, with the bytes still due and the lexeme they complete. -/
  | name (due : List UInt8) (token : Token)
  /-- Inside a number. -/
  | number (read : List Char)
  /-- Inside a string. -/
  | string (read : List Piece)
  /-- After a backslash. -/
  | escape (read : List Piece)
  /-- Among the hexadecimal digits of an escape, with their value and the number of digits still
  due. -/
  | hex (read : List Piece) (value due : Nat)

/-- The scanner: the lexemes found so far in reverse, and the place within the current one. -/
structure Scanner where
  found : List Token
  place : Place

/-- The blanks that may stand between lexemes. -/
def isBlank (b : UInt8) : Bool :=
  b == 0x20 || b == 0x09 || b == 0x0A || b == 0x0D

/-- The bytes that number literals are made of. -/
def isNumeral (b : UInt8) : Bool :=
  (0x30 ≤ b && b ≤ 0x39) || b == 0x2B || b == 0x2D || b == 0x2E || b == 0x45 || b == 0x65

/-- The value of a hexadecimal digit. -/
def hexValue? (b : UInt8) : Option Nat :=
  if 0x30 ≤ b && b ≤ 0x39 then some (b.toNat - 0x30)
  else if 0x41 ≤ b && b ≤ 0x46 then some (b.toNat - 0x41 + 10)
  else if 0x61 ≤ b && b ≤ 0x66 then some (b.toNat - 0x61 + 10)
  else none

/-- The byte that a one-letter escape stands for. -/
def escaped? (b : UInt8) : Option UInt8 :=
  if b == 0x22 then some 0x22
  else if b == 0x5C then some 0x5C
  else if b == 0x2F then some 0x2F
  else if b == 0x62 then some 0x08
  else if b == 0x66 then some 0x0C
  else if b == 0x6E then some 0x0A
  else if b == 0x72 then some 0x0D
  else if b == 0x74 then some 0x09
  else none

/-- The first byte of a lexeme, or a blank. -/
def start? (found : List Token) (b : UInt8) : Option Scanner :=
  if isBlank b then some ⟨found, .between⟩
  else if b == 0x5B then some ⟨.openArray :: found, .between⟩
  else if b == 0x5D then some ⟨.closeArray :: found, .between⟩
  else if b == 0x7B then some ⟨.openObject :: found, .between⟩
  else if b == 0x7D then some ⟨.closeObject :: found, .between⟩
  else if b == 0x2C then some ⟨.comma :: found, .between⟩
  else if b == 0x3A then some ⟨.colon :: found, .between⟩
  else if b == 0x22 then some ⟨found, .string []⟩
  else if b == 0x6E then some ⟨found, .name [0x75, 0x6C, 0x6C] .null⟩
  else if b == 0x74 then some ⟨found, .name [0x72, 0x75, 0x65] (.bool true)⟩
  else if b == 0x66 then some ⟨found, .name [0x61, 0x6C, 0x73, 0x65] (.bool false)⟩
  else if isNumeral b then some ⟨found, .number [Char.ofUInt8 b]⟩
  else none

/-- The number lexeme made of the characters read. -/
def number? (read : List Char) : Option Token :=
  (Decimal.Literal.parse? read.reverse).map .number

/-- Take one more byte. -/
def step? (scanner : Scanner) (b : UInt8) : Option Scanner :=
  match scanner with
  | ⟨found, .between⟩ => start? found b
  | ⟨_, .name [] _⟩ => none
  | ⟨found, .name [last] token⟩ => if b == last then some ⟨token :: found, .between⟩ else none
  | ⟨found, .name (next :: due) token⟩ => if b == next then some ⟨found, .name due token⟩ else none
  | ⟨found, .number read⟩ =>
    if isNumeral b then some ⟨found, .number (Char.ofUInt8 b :: read)⟩
    else (number? read).bind fun token => start? (token :: found) b
  | ⟨found, .string read⟩ =>
    if b == 0x22 then some ⟨.string read.reverse :: found, .between⟩
    else if b == 0x5C then some ⟨found, .escape read⟩
    else if b < 0x20 then none
    else some ⟨found, .string (.byte b :: read)⟩
  | ⟨found, .escape read⟩ =>
    if b == 0x75 then some ⟨found, .hex read 0 4⟩
    else (escaped? b).map fun byte => ⟨found, .string (.byte byte :: read)⟩
  | ⟨found, .hex read value due⟩ =>
    (hexValue? b).map fun digit =>
      if due ≤ 1 then ⟨found, .string (.unit (value * 16 + digit) :: read)⟩
      else ⟨found, .hex read (value * 16 + digit) (due - 1)⟩

/-- The lexemes of a scanner that has seen the whole text. -/
def finish? (scanner : Scanner) : Option (List Token) :=
  match scanner with
  | ⟨found, .between⟩ => some found.reverse
  | ⟨found, .number read⟩ => (number? read).map fun token => (token :: found).reverse
  | _ => none

/-- The lexemes of a text; `none` if it has a part that is no lexeme. -/
def scan? (bytes : Bytes) : Option (List Token) := do
  let scanner ← bytes.foldlM step? ⟨[], .between⟩
  finish? scanner

end Token

end Json

end CanonicalTree
