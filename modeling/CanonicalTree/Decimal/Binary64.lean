/-!
# Finite binary64 values

A finite binary64 value is a sign and the rank of its magnitude: magnitudes are counted upwards
from zero, so that rank `0` is zero, rank `1` the smallest positive value, and every rank below
`rankLimit` is finite. The rank is the usual bit pattern without the sign, which makes finiteness a
bound, order an order of numbers, and equality decidable.

All magnitudes are whole multiples of the smallest positive one. `steps` is that multiple, and
`nearestRank` is the inverse question: which rank lies nearest to a quotient of steps, a tie going
to the even rank. The three operations below are exact arithmetic followed by one such rounding.
-/

namespace CanonicalTree

namespace Decimal

/-- The number of magnitudes between two powers of two: `2 ^ 52`. -/
def binade : Nat := 0x10000000000000

/-- The number of magnitudes: the rank at which infinity would stand. -/
def rankLimit : Nat := 2047 * binade

/-- How many smallest steps make the number one. -/
def stepsPerOne : Nat := Nat.pow 2 1074

/-- The magnitude of a rank, as a multiple of the smallest positive magnitude. -/
def steps (rank : Nat) : Nat :=
  if rank < binade then rank else (binade + rank % binade) * Nat.pow 2 (rank / binade - 1)

/-- The whole number nearest to `num / den`, a tie going to the even one. -/
def roundHalfEven (num den : Nat) : Nat :=
  let quotient := num / den
  let twice := 2 * (num % den)
  if twice < den then quotient
  else if den < twice then quotient + 1
  else quotient + quotient % 2

/-- The rank nearest to `num / den` steps, a tie going to the even rank; a result of `rankLimit` or
more means that the value is too large. -/
def nearestRank (num den : Nat) : Nat :=
  let shift := Nat.log2 (num / den) - 52
  shift * binade + roundHalfEven num (den * Nat.pow 2 shift)

/-- The rank nearest to a whole number. -/
def rankOfNat (n : Nat) : Nat :=
  nearestRank (n * stepsPerOne) 1

/-- The rank nearest to the product of two magnitudes. -/
def mulRank (left right : Nat) : Nat :=
  nearestRank (steps left * steps right) stepsPerOne

/-- The rank nearest to the quotient of two magnitudes. -/
def divRank (left right : Nat) : Nat :=
  nearestRank (steps left * stepsPerOne) (steps right)

end Decimal

open Decimal in
/-- A finite binary64 value. -/
structure Binary64 where
  /-- Whether the sign bit is set; zero has both signs. -/
  negative : Bool
  /-- The rank of the magnitude. -/
  rank : Fin rankLimit
  deriving DecidableEq

namespace Binary64

open Decimal

/-- The value with the given sign and rank, unless the rank stands for infinity. -/
def ofRank? (negative : Bool) (rank : Nat) : Option Binary64 :=
  if h : rank < rankLimit then some ⟨negative, ⟨rank, h⟩⟩ else none

/-- Equality of values: the two zeros are the same value. -/
def sameValue (x y : Binary64) : Bool :=
  x == y || (x.rank.val == 0 && y.rank.val == 0)

/-- Every number has the same value as itself, also one that is not a number. -/
theorem sameValue_refl (x : Binary64) : sameValue x x = true := by
  simp [sameValue]

theorem sameValue_comm (x y : Binary64) : sameValue x y = sameValue y x := by
  simp only [sameValue, BEq.comm (a := x), Bool.and_comm]

end Binary64

end CanonicalTree
