import CanonicalTree.Decimal.Shortest

/-!
# Text of real numbers

A real number is written with its shortest digits. With the value written `d.ddd * 10 ^ e`, plain
notation is used when `e` lies within the bounds of the layout, and always shows a fraction;
outside them the number is written with a signed exponent and shows a fraction only if it has one.
-/

namespace CanonicalTree.Decimal

/-- Where plain notation ends. -/
structure Layout where
  /-- The least exponent of the first digit that is written plainly. -/
  least : Int
  /-- The greatest exponent of the first digit that is written plainly. -/
  greatest : Int

/-- Numbers from `0.00001` up to, but not including, `10 ^ 16` are written plainly. -/
def layout : Layout := ⟨-5, 15⟩

/-- Drop the zeros at the end of a list of digits. -/
def stripZeros (digits : List Char) : List Char :=
  (digits.reverse.dropWhile (· = '0')).reverse

/-- Digits with the first one at exponent `e`, in plain notation. -/
def plain (digits : List Char) (e : Int) : List Char :=
  if e < 0 then
    '0' :: '.' :: (List.replicate (-e - 1).toNat '0' ++ digits)
  else
    let lead := e.toNat + 1
    if digits.length ≤ lead then
      digits ++ List.replicate (lead - digits.length) '0' ++ ['.', '0']
    else
      digits.take lead ++ '.' :: digits.drop lead

/-- Digits with the first one at exponent `e`, with a signed exponent. -/
def scientific (digits : List Char) (e : Int) : List Char :=
  let fraction := match digits.drop 1 with
    | [] => []
    | rest => '.' :: rest
  digits.take 1 ++ fraction ++ 'e' :: (if e < 0 then '-' else '+') :: Nat.toDigits 10 e.natAbs

/-- The magnitude of `rank` as text. -/
def magnitudeText (rank : Nat) : List Char :=
  if rank = 0 then ['0', '.', '0']
  else
    let d := shortest rank
    let all := Nat.toDigits 10 d.digits
    let e := d.exponent + all.length - 1
    let digits := stripZeros all
    if layout.least ≤ e ∧ e ≤ layout.greatest then plain digits e else scientific digits e

end CanonicalTree.Decimal

namespace CanonicalTree.Binary64

/-- The value as text, the sign first. -/
def text (x : Binary64) : String :=
  let magnitude := Decimal.magnitudeText x.rank.val
  String.ofList (if x.negative then '-' :: magnitude else magnitude)

end CanonicalTree.Binary64
