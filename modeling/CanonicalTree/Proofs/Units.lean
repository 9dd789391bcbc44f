import CanonicalTree.Source.Location
import Mathlib.Algebra.Group.Nat.Defs
import Mathlib.Data.List.DropRight
import Mathlib.Order.Bounds.Basic

/-!
# Code units between usable offsets

An offset is usable if it lies within the source and does not split a code unit. Between usable
offsets the bytes, the code units and the columns of a source can be cut and put together again,
which is what lets a cursor count in instalments.

The line of a usable offset starts at the last line start up to it, where a line start is the
beginning of the source or a place just behind a line end (`isGreatest_lineStart`).
-/

namespace CanonicalTree

namespace Encoding

theorem unitWidth_pos (encoding : Encoding) : 0 < encoding.unitWidth := by
  cases encoding <;> decide

@[simp] theorem units_nil (encoding : Encoding) : encoding.units [] = [] := by
  cases encoding <;> simp [units]

/-- Bytes that hold no further code unit, but only whole ones, are none. -/
theorem eq_nil_of_no_unit {encoding : Encoding} {bytes : List UInt8} (hutf8 : encoding ≠ .utf8)
    (hLE : ∀ low high rest, encoding = .utf16LE → bytes ≠ low :: high :: rest)
    (hBE : ∀ high low rest, encoding = .utf16BE → bytes ≠ high :: low :: rest)
    (h : bytes.length % encoding.unitWidth = 0) : bytes = [] := by
  match bytes, encoding with
  | [], _ => rfl
  | _, .utf8 => exact absurd rfl hutf8
  | [_], .utf16LE => simp [unitWidth] at h
  | [_], .utf16BE => simp [unitWidth] at h
  | low :: high :: rest, .utf16LE => exact absurd rfl (hLE low high rest rfl)
  | high :: low :: rest, .utf16BE => exact absurd rfl (hBE high low rest rfl)

/-- Bytes that are cut between two code units have the units of both parts. -/
theorem units_append (encoding : Encoding) (left right : List UInt8)
    (h : left.length % encoding.unitWidth = 0) :
    encoding.units (left ++ right) = encoding.units left ++ encoding.units right := by
  fun_induction units encoding left with
  | case1 bytes => simp [units]
  | case2 low high rest ih =>
    simp only [List.length_cons, unitWidth] at h ih
    simp only [List.cons_append, units]
    rw [ih (by omega)]
  | case3 high low rest ih =>
    simp only [List.length_cons, unitWidth] at h ih
    simp only [List.cons_append, units]
    rw [ih (by omega)]
  | case4 bytes encoding hutf8 hLE hBE =>
    rw [eq_nil_of_no_unit hutf8 hLE hBE h]
    simp

/-- Whole code units take up all the bytes. -/
theorem unitWidth_mul_length_units (encoding : Encoding) (bytes : List UInt8)
    (h : bytes.length % encoding.unitWidth = 0) :
    encoding.unitWidth * (encoding.units bytes).length = bytes.length := by
  fun_induction units encoding bytes with
  | case1 bytes => simp [unitWidth]
  | case2 low high rest ih =>
    simp only [List.length_cons, unitWidth] at h ih ⊢
    have := ih (by omega)
    omega
  | case3 high low rest ih =>
    simp only [List.length_cons, unitWidth] at h ih ⊢
    have := ih (by omega)
    omega
  | case4 bytes encoding hutf8 hLE hBE =>
    rw [eq_nil_of_no_unit hutf8 hLE hBE h]
    simp

end Encoding

/-- Columns add up where bytes are cut between two code units. -/
theorem ColumnUnit.count_append (unit : ColumnUnit) (encoding : Encoding) (left right : List UInt8)
    (h : left.length % encoding.unitWidth = 0) :
    unit.count encoding (left ++ right) = unit.count encoding left + unit.count encoding right := by
  cases unit <;> simp [count, encoding.units_append left right h]

namespace Source

variable {source : Source}

/-- An offset within the source that does not split a code unit. -/
def Usable (source : Source) (offset : Nat) : Prop :=
  offset ≤ source.bytes.size ∧ offset % source.encoding.unitWidth = 0

/-- An offset passes the check exactly if it is usable. -/
theorem check_eq_ok_iff (source : Source) (field : String) (offset : Nat) :
    source.check field offset = .ok () ↔ source.Usable offset := by
  simp only [check, Usable]
  split
  · simp; omega
  · split
    · next haligned => simp [haligned]; omega
    · next haligned => simp [haligned]

theorem usable_zero (source : Source) : source.Usable 0 := by
  simp [Usable]

/-- The distance of two usable offsets is made of whole code units. -/
theorem Usable.sub_mod {start stop : Nat} (hstart : source.Usable start)
    (hstop : source.Usable stop) : (stop - start) % source.encoding.unitWidth = 0 := by
  obtain ⟨k, hk⟩ := Nat.dvd_of_mod_eq_zero hstart.2
  obtain ⟨m, hm⟩ := Nat.dvd_of_mod_eq_zero hstop.2
  rw [hk, hm, ← Nat.mul_sub]
  exact Nat.mul_mod_right _ _

/-! ## Cutting slices -/

theorem slice_eq_drop_take (source : Source) (start stop : Nat) :
    source.slice start stop = (source.bytes.toList.take stop).drop start := by
  unfold slice
  rw [Array.toList_extract, List.extract_eq_drop_take']

theorem length_slice (source : Source) (start : Nat) {stop : Nat} (h : stop ≤ source.bytes.size) :
    (source.slice start stop).length = stop - start := by
  rw [slice_eq_drop_take]
  simp only [List.length_drop, List.length_take, Array.length_toList]
  omega

/-- A slice can be cut anywhere. -/
theorem slice_append_slice (source : Source) {start middle stop : Nat} (hstart : start ≤ middle)
    (hstop : middle ≤ stop) :
    source.slice start middle ++ source.slice middle stop = source.slice start stop := by
  simp only [slice_eq_drop_take]
  have htake : source.bytes.toList.take middle = (source.bytes.toList.take stop).take middle := by
    rw [List.take_take, Nat.min_eq_left hstop]
  rw [htake]
  generalize source.bytes.toList.take stop = bytes
  have hdrop : bytes.drop middle = (bytes.drop start).drop (middle - start) := by
    rw [List.drop_drop, Nat.add_sub_cancel' hstart]
  rw [List.drop_take, hdrop, List.take_append_drop]

theorem length_slice_mod {start stop : Nat} (hstart : source.Usable start)
    (hstop : source.Usable stop) :
    (source.slice start stop).length % source.encoding.unitWidth = 0 := by
  rw [length_slice source start hstop.1]
  exact hstart.sub_mod hstop

/-- Between usable offsets units can be cut at a usable offset. -/
theorem units_append_units {start middle : Nat} {stop : Nat} (hstart : source.Usable start)
    (hmiddle : source.Usable middle) (h : start ≤ middle) (h' : middle ≤ stop) :
    source.units start middle ++ source.units middle stop = source.units start stop := by
  unfold units
  rw [← slice_append_slice source h h',
    Encoding.units_append _ _ _ (length_slice_mod hstart hmiddle)]

/-- Between usable offsets columns add up. -/
theorem count_add_count (unit : ColumnUnit) {start middle stop : Nat}
    (hstart : source.Usable start) (hmiddle : source.Usable middle) (h : start ≤ middle)
    (h' : middle ≤ stop) :
    unit.count source.encoding (source.slice start middle) +
        unit.count source.encoding (source.slice middle stop) =
      unit.count source.encoding (source.slice start stop) := by
  rw [← slice_append_slice source h h',
    ColumnUnit.count_append _ _ _ _ (length_slice_mod hstart hmiddle)]

theorem unitWidth_mul_length_units {start stop : Nat} (hstart : source.Usable start)
    (hstop : source.Usable stop) :
    source.encoding.unitWidth * (source.units start stop).length = stop - start := by
  unfold units
  rw [Encoding.unitWidth_mul_length_units _ _ (length_slice_mod hstart hstop),
    length_slice source start hstop.1]

/-- Every cut of the units before an offset is made at an offset of its own. -/
theorem usable_of_units_eq_append {offset : Nat} (h : source.Usable offset) {left right : List Nat}
    (hunits : source.units 0 offset = left ++ right) :
    ∃ middle, middle = source.encoding.unitWidth * left.length ∧ middle ≤ offset ∧
      source.Usable middle ∧ source.units 0 middle = left ∧
      source.units middle offset = right := by
  have hlength := unitWidth_mul_length_units source.usable_zero h
  rw [hunits, List.length_append, Nat.mul_add] at hlength
  have hle : source.encoding.unitWidth * left.length ≤ offset := by omega
  have hmiddle : source.Usable (source.encoding.unitWidth * left.length) :=
    ⟨hle.trans h.1, Nat.mul_mod_right _ _⟩
  have hsame : (source.units 0 (source.encoding.unitWidth * left.length)).length = left.length := by
    have := unitWidth_mul_length_units source.usable_zero hmiddle
    exact Nat.eq_of_mul_eq_mul_left source.encoding.unitWidth_pos (by omega)
  have hsplit := units_append_units source.usable_zero hmiddle (Nat.zero_le _) hle
  rw [hunits] at hsplit
  obtain ⟨hleft, hright⟩ := List.append_inj hsplit hsame
  exact ⟨_, rfl, hle, hmiddle, hleft, hright⟩

/-! ## Line starts -/

/-- The beginning of the source, or a place just behind a line end. -/
def IsLineStart (source : Source) (start : Nat) : Prop :=
  start = 0 ∨ ∃ before, source.Usable before ∧ source.Usable start ∧
    start = before + source.encoding.unitWidth ∧ source.units before start = [lineEnd]

/-- Where its line starts, the units before an offset are cut behind the last line end. -/
theorem lineStart_cut {offset : Nat} (h : source.Usable offset) :
    source.Usable (source.lineStart offset) ∧ source.lineStart offset ≤ offset ∧
      source.units 0 (source.lineStart offset) =
        (source.units 0 offset).rdropWhile (· ≠ lineEnd) ∧
      source.units (source.lineStart offset) offset =
        (source.units 0 offset).rtakeWhile (· ≠ lineEnd) := by
  have hcut : source.units 0 offset = (source.units 0 offset).rdropWhile (· ≠ lineEnd) ++
      (source.units 0 offset).rtakeWhile (· ≠ lineEnd) := List.rdropWhile_append_rtakeWhile.symm
  obtain ⟨start, -, hle, husable, hbefore, hafter⟩ := usable_of_units_eq_append h hcut
  have heq : source.lineStart offset = start := by
    have hlength := unitWidth_mul_length_units husable h
    rw [hafter, List.rtakeWhile, List.length_reverse] at hlength
    simp only [lineStart]
    omega
  rw [heq]
  exact ⟨husable, hle, hbefore, hafter⟩

/-- The line of an offset starts at the last line start up to it. -/
theorem isGreatest_lineStart {offset : Nat} (h : source.Usable offset) :
    IsGreatest {start | source.IsLineStart start ∧ start ≤ offset} (source.lineStart offset) := by
  obtain ⟨husable, hle, hbefore, hafter⟩ := lineStart_cut h
  have hlength := unitWidth_mul_length_units source.usable_zero husable
  refine ⟨⟨?_, hle⟩, ?_⟩
  · by_cases hnil : source.units 0 (source.lineStart offset) = []
    · left
      simpa [hnil] using hlength.symm
    · right
      have hlast : (source.units 0 (source.lineStart offset)).getLast hnil = lineEnd := by
        have hnot := List.rdropWhile_last_not (· ≠ lineEnd) (source.units 0 offset) (hbefore ▸ hnil)
        simp only [← hbefore] at hnot
        simpa using hnot
      have hinit := List.dropLast_append_getLast hnil
      rw [hlast] at hinit
      obtain ⟨before, hdef, -, husableBefore, -, hunit⟩ :=
        usable_of_units_eq_append husable hinit.symm
      refine ⟨before, husableBefore, husable, ?_, hunit⟩
      rw [← hinit, List.length_append, Nat.mul_add, List.length_singleton] at hlength
      omega
  · rintro start ⟨hstart, hstartle⟩
    rcases hstart with rfl | ⟨before, husableBefore, hstart, hnext, hunit⟩
    · exact Nat.zero_le _
    · by_contra hlt
      have hbehind : source.lineStart offset ≤ before := by
        obtain ⟨k, hk⟩ := Nat.dvd_of_mod_eq_zero husable.2
        obtain ⟨m, hm⟩ := Nat.dvd_of_mod_eq_zero husableBefore.2
        rw [hk, hnext, hm, ← Nat.mul_succ, not_le] at hlt
        rw [hk, hm]
        exact Nat.mul_le_mul_left _ (Nat.le_of_lt_succ (Nat.lt_of_mul_lt_mul_left hlt))
      -- the line end just before `start` would lie on the line of the offset
      have hmem : lineEnd ∈ source.units (source.lineStart offset) offset := by
        rw [← units_append_units husable husableBefore hbehind (by omega),
          ← units_append_units husableBefore hstart (by omega) hstartle, hunit]
        simp
      rw [hafter] at hmem
      have := List.mem_rtakeWhile_imp hmem
      simp at this

end Source

end CanonicalTree
