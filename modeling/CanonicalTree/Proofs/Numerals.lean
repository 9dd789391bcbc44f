import CanonicalTree.Json.Number
import Mathlib.Data.List.TakeWhile

/-!
# Numbers and their literals

A literal is made of numeral characters only, and it never is empty; the text of a number is made of
them, too (`forall_isNumeral_text`). Whole numbers that fit a word are written as literals from
which the same number is read (`readsBack_whole`, `readsBack_negative`). Of a real number this is
not true in general, since reading rounds twice.
-/

namespace CanonicalTree

namespace Decimal.Literal

/-! ## The characters of a literal -/

/-- The characters that literals are made of. -/
def isNumeral (c : Char) : Bool :=
  c.isDigit || c = '+' || c = '-' || c = '.' || c = 'e' || c = 'E'

theorem isNumeral_of_isDigit {c : Char} (h : c.isDigit = true) : isNumeral c = true := by
  simp [isNumeral, h]

/-- If what follows the digits has only characters of numbers, so has the text. -/
theorem forall_isNumeral_of_spanDigits {text rest : List Char} {digits : List Nat}
    (h : spanDigits text = (digits, rest)) (hrest : ∀ c ∈ rest, isNumeral c = true) :
    ∀ c ∈ text, isNumeral c = true := by
  obtain ⟨-, rfl⟩ := Prod.mk.inj h
  intro c hc
  rw [← List.takeWhile_append_dropWhile (p := Char.isDigit) (l := text)] at hc
  rcases List.mem_append.mp hc with hc | hc
  · exact isNumeral_of_isDigit (List.mem_takeWhile_imp hc)
  · exact hrest c hc

theorem forall_isNumeral_of_exponentDigits? {text : List Char} {n : Nat}
    (h : exponentDigits? text = some n) : ∀ c ∈ text, isNumeral c = true := by
  rw [exponentDigits?] at h
  split at h
  · rename_i hspan
    exact forall_isNumeral_of_spanDigits hspan (by simp)
  · cases h

theorem forall_isNumeral_of_exponent? {text : List Char} {exponent : Option Int}
    (h : exponent? text = some exponent) : ∀ c ∈ text, isNumeral c = true := by
  cases text with
  | nil => simp
  | cons c rest =>
    rw [exponent?.eq_def] at h
    simp only at h
    split at h
    · rename_i hmark
      have hc : isNumeral c = true := by
        rcases hmark with rfl | rfl <;> rfl
      refine List.forall_mem_cons.mpr ⟨hc, ?_⟩
      split at h
      all_goals
        obtain ⟨_, h, -⟩ := Option.map_eq_some_iff.mp h
        obtain ⟨n, hdigits, -⟩ := Option.bind_eq_some_iff.mp h
        have hrest := forall_isNumeral_of_exponentDigits? hdigits
      · exact List.forall_mem_cons.mpr ⟨rfl, hrest⟩
      · exact List.forall_mem_cons.mpr ⟨rfl, hrest⟩
      · exact hrest
    · cases h

theorem forall_isNumeral_of_fraction? {text rest : List Char} {fraction : Option (List Nat)}
    (h : fraction? text = some (fraction, rest)) (hrest : ∀ c ∈ rest, isNumeral c = true) :
    ∀ c ∈ text, isNumeral c = true := by
  rw [fraction?.eq_def] at h
  split at h
  · split at h
    · cases h
    · rename_i hspan
      cases h
      exact List.forall_mem_cons.mpr ⟨rfl, forall_isNumeral_of_spanDigits hspan hrest⟩
  · cases h
    exact hrest

/-- An unsigned number is not empty and has only characters of numbers. -/
theorem forall_isNumeral_of_unsigned? {negative : Bool} {text : List Char} {literal : Literal}
    (h : unsigned? negative text = some literal) :
    text ≠ [] ∧ ∀ c ∈ text, isNumeral c = true := by
  rw [unsigned?] at h
  split at h
  · cases h
  · cases h
  · rename_i whole rest hne _ hspan
    obtain ⟨⟨fraction, remaining⟩, hfraction, h⟩ := Option.bind_eq_some_iff.mp h
    obtain ⟨exponent, hexponent, -⟩ := Option.bind_eq_some_iff.mp h
    have hremaining := forall_isNumeral_of_exponent? hexponent
    have hrest := forall_isNumeral_of_fraction? hfraction hremaining
    refine ⟨?_, forall_isNumeral_of_spanDigits hspan hrest⟩
    rintro rfl
    exact hne (Prod.mk.inj hspan).1.symm

/-- A literal is a nonempty run of numeral characters. -/
theorem forall_isNumeral_of_parse? {text : List Char} {literal : Literal}
    (h : parse? text = some literal) : text ≠ [] ∧ ∀ c ∈ text, isNumeral c = true := by
  rw [parse?.eq_def] at h
  split at h
  · obtain ⟨-, hrest⟩ := forall_isNumeral_of_unsigned? h
    exact ⟨List.cons_ne_nil _ _, List.forall_mem_cons.mpr ⟨rfl, hrest⟩⟩
  · exact forall_isNumeral_of_unsigned? h

theorem forall_isNumeral_toDigits (n : Nat) : ∀ c ∈ Nat.toDigits 10 n, isNumeral c = true :=
  fun _ hc => isNumeral_of_isDigit (Nat.isDigit_of_mem_toDigits (by decide) (by decide) hc)

/-! ## The digits of a whole number -/

/-- The digits of a whole number, the first one first. -/
def digitsOf (n : Nat) : List Nat :=
  (Nat.toDigits 10 n).map fun c => c.toNat - '0'.toNat

/-- The digits of a printed natural number are read to the end. -/
theorem spanDigits_toDigits (n : Nat) : spanDigits (Nat.toDigits 10 n) = (digitsOf n, []) := by
  have hdigits : ∀ c ∈ Nat.toDigits 10 n, c.isDigit = true := fun c hc =>
    Nat.isDigit_of_mem_toDigits (by decide) (by decide) hc
  rw [spanDigits, List.takeWhile_eq_self_iff.mpr hdigits, List.dropWhile_eq_nil_iff.mpr hdigits]
  rfl

theorem digitsOf_of_lt {n : Nat} (h : n < 10) : digitsOf n = [n] := by
  rw [digitsOf, Nat.toDigits_of_lt_base h]
  revert n
  decide

/-- The digits of a larger number are those of its tenth, and its last one. -/
theorem digitsOf_of_le {n : Nat} (h : 10 ≤ n) :
    digitsOf n = digitsOf (n / 10) ++ digitsOf (n % 10) := by
  have hlast : Nat.toDigits 10 (n % 10) = [Nat.digitChar (n % 10)] :=
    Nat.toDigits_of_lt_base (Nat.mod_lt _ (by decide))
  rw [digitsOf, Nat.toDigits_of_base_le (by decide) h, List.map_append, digitsOf, digitsOf, hlast]

/-- Only zero is written with a zero in front. -/
theorem digitsOf_eq_cons (n : Nat) :
    ∃ d rest, digitsOf n = d :: rest ∧ (d = 0 → rest = []) ∧ (0 < n → 0 < d) := by
  induction n using Nat.strongRecOn with
  | ind n ih =>
    by_cases h : n < 10
    · exact ⟨n, [], digitsOf_of_lt h, fun _ => rfl, id⟩
    · obtain ⟨d, rest, heq, -, hpos⟩ := ih (n / 10) (by omega)
      have hd : 0 < d := hpos (by omega)
      refine ⟨d, rest ++ digitsOf (n % 10), ?_, by omega, fun _ => hd⟩
      rw [digitsOf_of_le (by omega), heq, List.cons_append]

/-- A printed natural number is read as its digits, without fraction and exponent. -/
theorem unsigned?_toDigits (negative : Bool) (n : Nat) :
    unsigned? negative (Nat.toDigits 10 n) = some ⟨negative, digitsOf n, none, none⟩ := by
  obtain ⟨d, rest, heq, hzero, -⟩ := digitsOf_eq_cons n
  rw [unsigned?, spanDigits_toDigits, heq]
  split
  · rename_i h
    cases h
  · rename_i h
    cases h
    cases hzero rfl
  · rename_i h
    cases h
    rfl

/-- Appending the digits of a number to a significand, as far as it stays below the limit. -/
theorem absorb_eq {significand : Nat} {digits : List Nat}
    (h : digits.foldl (fun n d => n * 10 + d) significand < UInt64.size) :
    absorb significand digits = (digits.foldl (fun n d => n * 10 + d) significand, []) := by
  induction digits generalizing significand with
  | nil => rfl
  | cons d rest ih =>
    have hle : ∀ (digits : List Nat) (n : Nat), n ≤ digits.foldl (fun n d => n * 10 + d) n := by
      intro digits
      induction digits with
      | nil => exact fun n => Nat.le_refl n
      | cons d rest ih => exact fun n => Nat.le_trans (by omega) (ih (n * 10 + d))
    have hd : significand * 10 + d < UInt64.size := Nat.lt_of_le_of_lt (hle rest _) h
    rw [absorb, if_pos hd, ih h]
    rfl

/-- The digits of a number have its value. -/
theorem ofDigits_digitsOf (n : Nat) : ofDigits (digitsOf n) = n := by
  induction n using Nat.strongRecOn with
  | ind n ih =>
    by_cases h : n < 10
    · rw [digitsOf_of_lt h]
      simp [ofDigits]
    · have hhigh := ih (n / 10) (by omega)
      rw [ofDigits] at hhigh
      rw [digitsOf_of_le (by omega), digitsOf_of_lt (Nat.mod_lt n (by decide)), ofDigits,
        List.foldl_append, hhigh]
      simp only [List.foldl_cons, List.foldl_nil]
      omega

/-- The digits of a number that fits into a word are read as that word. -/
theorem word?_digitsOf (negative : Bool) {n : Nat} (h : n < UInt64.size) :
    word? ⟨negative, digitsOf n, none, none⟩ = some n := by
  have hvalue := ofDigits_digitsOf n
  rw [ofDigits] at hvalue
  have habsorb : absorb 0 (digitsOf n) = (n, []) := by
    rw [absorb_eq (by rwa [hvalue]), hvalue]
  rw [word?]
  simp only [habsorb]

end Decimal.Literal

namespace Decimal

open Literal

/-! ## The characters of a number -/

theorem forall_isNumeral_stripZeros {digits : List Char} (h : ∀ c ∈ digits, isNumeral c = true) :
    ∀ c ∈ stripZeros digits, isNumeral c = true := by
  intro c hc
  have hkept := (List.dropWhile_sublist _).mem (List.mem_reverse.mp hc)
  exact h c (List.mem_reverse.mp hkept)

theorem forall_isNumeral_plain {digits : List Char} (h : ∀ c ∈ digits, isNumeral c = true)
    (e : Int) : ∀ c ∈ plain digits e, isNumeral c = true := by
  have hzeros : ∀ n, ∀ c ∈ List.replicate n '0', isNumeral c = true := by
    intro n c hc
    rw [(List.mem_replicate.mp hc).2]
    rfl
  unfold plain
  split
  · exact List.forall_mem_cons.mpr ⟨rfl, List.forall_mem_cons.mpr
      ⟨rfl, List.forall_mem_append.mpr ⟨hzeros _, h⟩⟩⟩
  · dsimp only
    split
    · refine List.forall_mem_append.mpr ⟨List.forall_mem_append.mpr ⟨h, hzeros _⟩, ?_⟩
      simp [isNumeral]
    · refine List.forall_mem_append.mpr ⟨fun c hc => h c (List.mem_of_mem_take hc), ?_⟩
      exact List.forall_mem_cons.mpr ⟨rfl, fun c hc => h c (List.mem_of_mem_drop hc)⟩

theorem forall_isNumeral_scientific {digits : List Char} (h : ∀ c ∈ digits, isNumeral c = true)
    (e : Int) : ∀ c ∈ scientific digits e, isNumeral c = true := by
  have hrest : ∀ c ∈ digits.drop 1, isNumeral c = true := fun c hc => h c (List.mem_of_mem_drop hc)
  have hsign : isNumeral (if e < 0 then '-' else '+') = true := by
    split <;> rfl
  unfold scientific
  dsimp only
  refine List.forall_mem_append.mpr ⟨List.forall_mem_append.mpr
    ⟨fun c hc => h c (List.mem_of_mem_take hc), ?_⟩, List.forall_mem_cons.mpr
    ⟨rfl, List.forall_mem_cons.mpr ⟨hsign, forall_isNumeral_toDigits _⟩⟩⟩
  split
  · simp
  · exact List.forall_mem_cons.mpr ⟨rfl, hrest⟩

/-- A printed real number has only characters of numbers. -/
theorem forall_isNumeral_magnitudeText (rank : Nat) :
    ∀ c ∈ magnitudeText rank, isNumeral c = true := by
  unfold magnitudeText
  split
  · simp [isNumeral]
  · have hdigits := forall_isNumeral_stripZeros (forall_isNumeral_toDigits (shortest rank).digits)
    dsimp only
    split
    · exact forall_isNumeral_plain hdigits _
    · exact forall_isNumeral_scientific hdigits _

end Decimal

namespace Number

open Decimal

/-- The number is read from its own text. -/
def ReadsBack (number : Number) : Prop :=
  (Literal.parse? number.text.toList).bind ofLiteral? = some number

instance (number : Number) : Decidable number.ReadsBack :=
  inferInstanceAs (Decidable (_ = _))

/-- A number that reads back is printed as a literal that has its value. -/
theorem ReadsBack.exists_literal {number : Number} (h : number.ReadsBack) :
    ∃ literal, Literal.parse? number.text.toList = some literal ∧
      ofLiteral? literal = some number :=
  Option.bind_eq_some_iff.mp h

theorem toList_toString (n : Nat) : (toString n).toList = Nat.toDigits 10 n := by
  rw [Nat.toString_eq_ofList_toDigits, String.toList_ofList]

/-- A negative number is printed as a minus and its amount. -/
theorem toList_text_negative (n : Fin 0x8000000000000000) :
    (Number.negative n).text.toList = '-' :: Nat.toDigits 10 (n.val + 1) := by
  rw [text, String.toList_append, toList_toString]
  rfl

/-- Every number is printed in characters of numbers only. -/
theorem forall_isNumeral_text (number : Number) :
    ∀ c ∈ number.text.toList, Literal.isNumeral c = true := by
  cases number with
  | whole n =>
    rw [text, toList_toString]
    exact Literal.forall_isNumeral_toDigits _
  | negative n =>
    rw [toList_text_negative]
    exact List.forall_mem_cons.mpr ⟨rfl, Literal.forall_isNumeral_toDigits _⟩
  | real x =>
    rw [text, Binary64.text, String.toList_ofList]
    split
    · exact List.forall_mem_cons.mpr ⟨rfl, forall_isNumeral_magnitudeText _⟩
    · exact forall_isNumeral_magnitudeText _

theorem parse?_toDigits (n : Nat) :
    Literal.parse? (Nat.toDigits 10 n) = some ⟨false, Literal.digitsOf n, none, none⟩ := by
  rw [Literal.parse?.eq_def]
  split
  · rename_i rest heq
    have hdigit : '-'.isDigit = true :=
      Nat.isDigit_of_mem_toDigits (by decide) (by decide) (heq ▸ List.mem_cons_self)
    cases hdigit
  · exact Literal.unsigned?_toDigits false n

/-- Whole numbers read back. -/
theorem readsBack_whole (n : UInt64) : (Number.whole n).ReadsBack := by
  rw [ReadsBack, text, toList_toString, parse?_toDigits, Option.bind_some, ofLiteral?,
    Literal.word?_digitsOf false n.toNat_lt_size]
  simp [ofNat]

/-- Negative numbers read back. -/
theorem readsBack_negative (n : Fin 0x8000000000000000) : (Number.negative n).ReadsBack := by
  have hn := n.isLt
  have hsize : n.val + 1 < UInt64.size := by
    rw [UInt64.size]
    omega
  rw [ReadsBack, toList_text_negative, Literal.parse?, Literal.unsigned?_toDigits,
    Option.bind_some, ofLiteral?, Literal.word?_digitsOf true hsize]
  simp only [if_true]
  rw [dif_pos ⟨by omega, by omega⟩]
  rfl

end Number

end CanonicalTree
