import CanonicalTree.Decimal.Binary64

/-!
# Number literals

The grammar of number literals and the value of a literal. A literal without fraction and exponent
whose value fits a word is a whole number; every other literal is a real number, read in two
roundings. Its digits go into a 64-bit significand as long as they fit: whole digits that do not
fit only raise the exponent, fraction digits that do not fit are dropped. The significand is
rounded to binary64, and is then multiplied or divided by a rounded power of ten, in portions of at
most `10 ^ 308`.
-/

namespace CanonicalTree.Decimal

/-- The parts of a number literal. -/
structure Literal where
  /-- Whether the literal starts with a minus sign. -/
  negative : Bool
  /-- The digits before the point. -/
  whole : List Nat
  /-- The digits after the point, if there is one. -/
  fraction : Option (List Nat)
  /-- The exponent, if there is one. -/
  exponent : Option Int
  deriving DecidableEq

namespace Literal

/-- The digits at the start of a text and the text after them. -/
def spanDigits (text : List Char) : List Nat × List Char :=
  ((text.takeWhile Char.isDigit).map fun c => c.toNat - '0'.toNat, text.dropWhile Char.isDigit)

/-- A run of digits read as a whole number. -/
def ofDigits (digits : List Nat) : Nat :=
  digits.foldl (fun n d => n * 10 + d) 0

/-- The fraction at the start of a text, which has at least one digit, and the text after it. -/
def fraction? (text : List Char) : Option (Option (List Nat) × List Char) :=
  match text with
  | '.' :: rest =>
    match spanDigits rest with
    | ([], _) => none
    | (digits, rest) => some (some digits, rest)
  | _ => some (none, text)

/-- The digits of an exponent, which end the text. -/
def exponentDigits? (text : List Char) : Option Nat :=
  match spanDigits text with
  | (d :: digits, []) => some (ofDigits (d :: digits))
  | _ => none

/-- The exponent at the start of a text, which ends the text. -/
def exponent? (text : List Char) : Option (Option Int) :=
  match text with
  | [] => some none
  | c :: rest =>
    if c = 'e' ∨ c = 'E' then
      match rest with
      | '-' :: digits => (exponentDigits? digits).map fun n => some (-(n : Int))
      | '+' :: digits => (exponentDigits? digits).map fun n => some (n : Int)
      | digits => (exponentDigits? digits).map fun n => some (n : Int)
    else none

/-- Split a literal without its sign. The whole part has a leading zero only if it is zero. -/
def unsigned? (negative : Bool) (text : List Char) : Option Literal :=
  match spanDigits text with
  | ([], _) => none
  | (0 :: _ :: _, _) => none
  | (whole, rest) => do
    let (fraction, rest) ← fraction? rest
    let exponent ← exponent? rest
    pure ⟨negative, whole, fraction, exponent⟩

/-- Split a literal into its parts; `none` if the text is no number literal. -/
def parse? (text : List Char) : Option Literal :=
  match text with
  | '-' :: rest => unsigned? true rest
  | _ => unsigned? false text

/-- Append digits to a significand while it stays below `2 ^ 64`, and return those left over. -/
def absorb (significand : Nat) (digits : List Nat) : Nat × List Nat :=
  match digits with
  | [] => (significand, [])
  | d :: rest =>
    if significand * 10 + d < UInt64.size then absorb (significand * 10 + d) rest
    else (significand, d :: rest)

/-- Divide a magnitude by `10 ^ k`, in portions of at most `10 ^ 308`. -/
def scaleDown (rank k : Nat) : Nat :=
  if k ≤ 308 then divRank rank (rankOfNat (Nat.pow 10 k))
  else if rank = 0 then 0
  else scaleDown (divRank rank (rankOfNat (Nat.pow 10 308))) (k - 308)
termination_by k

/-- Multiply a magnitude by `10 ^ exponent`; `none` if the result is too large. -/
def scale (rank : Nat) (exponent : Int) : Option Nat :=
  if exponent < 0 then some (scaleDown rank exponent.natAbs)
  else if rank = 0 then some 0
  else if 308 < exponent then none
  else some (mulRank rank (rankOfNat (Nat.pow 10 exponent.toNat)))

/-- The significand of a literal and the power of ten it is multiplied by. -/
def significand (literal : Literal) : Nat × Int :=
  let (high, surplus) := absorb 0 literal.whole
  let digits := literal.fraction.getD []
  let (all, dropped) := absorb high digits
  (all, (surplus.length : Int) - (digits.length - dropped.length : Nat) + literal.exponent.getD 0)

/-- The literal as a real number; `none` if it is too large. -/
def real? (literal : Literal) : Option Binary64 := do
  let (digits, exponent) := literal.significand
  let rank ← scale (rankOfNat digits) exponent
  Binary64.ofRank? literal.negative rank

/-- The literal as a word, if it has neither fraction nor exponent and its digits fit. -/
def word? (literal : Literal) : Option Nat :=
  match literal.fraction, literal.exponent, absorb 0 literal.whole with
  | none, none, (n, []) => some n
  | _, _, _ => none

end Literal

end CanonicalTree.Decimal
