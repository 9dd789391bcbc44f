import CanonicalTree.Decimal.Layout
import CanonicalTree.Decimal.Literal

/-!
# JSON numbers

A number keeps the form in which it was written: a whole number that fits an unsigned word, a
negative whole number that fits a signed word, or a real number. Two numbers are the same only if
they have the same form; `1` and `1.0` differ.
-/

namespace CanonicalTree

/-- A JSON number in one of its three forms. -/
inductive Number where
  /-- A whole number from `0` to `2 ^ 64 - 1`. -/
  | whole (n : UInt64)
  /-- The whole number `-(n + 1)`, from `-1` down to `-2 ^ 63`. -/
  | negative (n : Fin 0x8000000000000000)
  /-- A finite binary64 number. -/
  | real (x : Binary64)
  deriving DecidableEq

namespace Number

open Decimal

/-- The whole number `n`, wrapped into a word. -/
def ofNat (n : Nat) : Number :=
  .whole (UInt64.ofNat n)

/-- Equality of form and value; the two real zeros are the same value. -/
def sameValue (x y : Number) : Bool :=
  match x, y with
  | .whole m, .whole n => m == n
  | .negative m, .negative n => m == n
  | .real a, .real b => a.sameValue b
  | _, _ => false

/-- The number as it is written. -/
def text (x : Number) : String :=
  match x with
  | .whole n => toString n.toNat
  | .negative n => "-" ++ toString (n.val + 1)
  | .real a => a.text

/-- The value of a literal; `none` if it is a real number that is too large. A minus sign in front
of zero or of a number below `-2 ^ 63` makes the literal real. -/
def ofLiteral? (literal : Literal) : Option Number :=
  match literal.word? with
  | none => literal.real?.map .real
  | some n =>
    if literal.negative then
      if h : 0 < n ∧ n ≤ 0x8000000000000000 then some (.negative ⟨n - 1, by omega⟩)
      else literal.real?.map .real
    else some (.ofNat n)

theorem sameValue_refl (x : Number) : sameValue x x = true := by
  cases x <;> simp [sameValue, Binary64.sameValue_refl]

theorem sameValue_comm (x y : Number) : sameValue x y = sameValue y x := by
  cases x <;> cases y <;> simp [sameValue, Binary64.sameValue_comm, BEq.comm]

end Number

end CanonicalTree
