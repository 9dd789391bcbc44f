import CanonicalTree.Decimal.Binary64

/-!
# Shortest decimal digits

Every magnitude is the rounding of an interval of reals, from half-way to the magnitude below up to
half-way to the one above; the ends belong to it exactly when the rank is even. `shortest` looks
for the decimal with the fewest digits inside that interval: for one digit, two digits, and so on,
it tries the two decimals of that length around the magnitude. If both lie inside, the nearer one
is taken, and a tie goes to the even digit. Seventeen digits always suffice.
-/

namespace CanonicalTree.Decimal

/-- A decimal `digits * 10 ^ exponent`. -/
structure Scaled where
  /-- The digits, read as a whole number. -/
  digits : Nat
  /-- The power of ten of the last digit. -/
  exponent : Int
  deriving DecidableEq

namespace Scaled

/-- Numerator of the decimal in steps. -/
def num (d : Scaled) : Nat := d.digits * Nat.pow 10 d.exponent.toNat * stepsPerOne

/-- Denominator of the decimal in steps. -/
def den (d : Scaled) : Nat := Nat.pow 10 (-d.exponent).toNat

end Scaled

/-- Whether the decimal rounds to the magnitude of `rank`. -/
def roundsTo (rank : Nat) (d : Scaled) : Bool :=
  let low := (steps (rank - 1) + steps rank) * d.den
  let high := (steps rank + steps (rank + 1)) * d.den
  let twice := 2 * d.num
  if rank % 2 = 0 then decide (low ≤ twice ∧ twice ≤ high)
  else decide (low < twice ∧ twice < high)

/-- The exponent of the first digit: the `e` with `10 ^ e ≤ value < 10 ^ (e + 1)`. -/
def leadingExponent (rank : Nat) : Int :=
  let whole := steps rank / stepsPerOne
  if whole = 0 then
    match (List.range 325).find? fun k => stepsPerOne ≤ steps rank * Nat.pow 10 k with
    | some k => -(k : Int)
    | none => -324
  else (Nat.toDigits 10 whole).length - 1

/-- The distance of a decimal from the magnitude of `rank`, as a numerator over `d.den`. -/
def distance (rank : Nat) (d : Scaled) : Nat :=
  let exact := steps rank * d.den
  (d.num - exact) + (exact - d.num)

/-- The decimal with `count` digits that rounds to the magnitude of `rank`, if there is one. -/
def withDigits? (rank count : Nat) : Option Scaled :=
  let exponent := leadingExponent rank - count + 1
  let unit : Scaled := ⟨1, exponent⟩
  let below : Scaled := ⟨steps rank * unit.den / unit.num, exponent⟩
  let above : Scaled := ⟨below.digits + 1, exponent⟩
  match roundsTo rank below, roundsTo rank above with
  | true, true =>
    let low := distance rank below
    let high := distance rank above
    if low < high ∨ (low = high ∧ below.digits % 2 = 0) then some below else some above
  | true, false => some below
  | false, true => some above
  | false, false => none

/-- The decimal with the fewest digits that rounds to the magnitude of `rank`. -/
def shortest (rank : Nat) : Scaled :=
  match (List.range 17).findSome? fun n => withDigits? rank (n + 1) with
  | some d => d
  | none => ⟨0, 0⟩

end CanonicalTree.Decimal
