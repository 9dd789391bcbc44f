import CanonicalTree.Proofs.Units
import CanonicalTree.Source.Cursor
import Mathlib.Data.List.Induction
import Mathlib.Data.List.Pairwise

/-!
# A cursor answers like its source

A cursor carries three pieces of history: how far it has scanned, the line starts it has found and
the column it counted last. `Sound` says that all three are true of the source. Every question
keeps a cursor sound, and a sound cursor locates an offset exactly where the source itself does, so
what it was asked before does not show in its answers.

The line starts stay in order, so the line of an offset is the one that the line ends before it
count, whether it is searched for or known to be the last (`Sound.lineIndex`).
-/

namespace CanonicalTree.Cursor

variable {source : Source} {unit : ColumnUnit} {cursor : Cursor}

/-- What a cursor remembers is true of the source. -/
structure Sound (source : Source) (unit : ColumnUnit) (cursor : Cursor) : Prop where
  /-- The scanned part ends between two code units. -/
  scanned_usable : source.Usable cursor.scanned
  /-- The line starts are the beginning of the source and those that one scan of this part finds. -/
  starts_eq : cursor.starts.toList =
    0 :: lineStarts source.encoding.unitWidth 0 (source.units 0 cursor.scanned)
  /-- The columns of the mark are those from its line start up to its offset. -/
  mark_counts : ∀ mark, cursor.mark = some mark →
    source.Usable mark.lineStart ∧ source.Usable mark.offset ∧ mark.lineStart ≤ mark.offset ∧
      mark.columns = unit.count source.encoding (source.slice mark.lineStart mark.offset)

/-- A new cursor knows nothing that could be wrong. -/
theorem sound_empty (source : Source) (unit : ColumnUnit) : Sound source unit {} where
  scanned_usable := source.usable_zero
  starts_eq := by simp [Source.units, Source.slice_eq_drop_take, lineStarts]
  mark_counts := by simp

/-! ## Scanning -/

/-- Scanning in two instalments finds what one scan finds. -/
theorem lineStarts_append (width offset : Nat) (left right : List Nat) :
    lineStarts width offset (left ++ right) =
      lineStarts width offset left ++ lineStarts width (offset + width * left.length) right := by
  induction left generalizing offset with
  | nil => simp [lineStarts]
  | cons unit rest ih =>
    have hnext : offset + width * (rest.length + 1) = offset + width + width * rest.length := by
      rw [Nat.mul_succ]
      omega
    simp only [List.cons_append, lineStarts, List.length_cons, hnext, ih]
    split <;> rfl

/-- A scan finds one line start for every line end. -/
theorem length_lineStarts (width offset : Nat) (units : List Nat) :
    (lineStarts width offset units).length = units.count Source.lineEnd := by
  induction units generalizing offset with
  | nil => rfl
  | cons unit rest ih =>
    simp only [lineStarts]
    split
    · next h => rw [List.length_cons, ih, h, List.count_cons_self]
    · next h => rw [ih, List.count_cons_of_ne h]

/-- The line starts that a scan finds lie behind its beginning and not behind its end. -/
theorem mem_lineStarts {width : Nat} (hwidth : 0 < width) {offset : Nat} {units : List Nat}
    {start : Nat} (h : start ∈ lineStarts width offset units) :
    offset < start ∧ start ≤ offset + width * units.length := by
  induction units generalizing offset with
  | nil => cases h
  | cons unit rest ih =>
    have hrest : start ∈ lineStarts width (offset + width) rest →
        offset < start ∧ start ≤ offset + width * (rest.length + 1) := by
      intro hmem
      have := ih hmem
      rw [Nat.mul_succ]
      omega
    simp only [lineStarts] at h
    rw [List.length_cons]
    split at h
    · rcases List.mem_cons.mp h with rfl | hmem
      · rw [Nat.mul_succ]
        omega
      · exact hrest hmem
    · exact hrest h

/-- A scan finds the line starts in order. -/
theorem pairwise_lineStarts {width : Nat} (hwidth : 0 < width) (offset : Nat) (units : List Nat) :
    (lineStarts width offset units).Pairwise (· < ·) := by
  induction units generalizing offset with
  | nil => exact .nil
  | cons unit rest ih =>
    simp only [lineStarts]
    split
    · exact .cons (fun start hstart => (mem_lineStarts hwidth hstart).1) (ih _)
    · exact ih _

/-- The last line start of a scanned part lies just behind its last line end. -/
theorem getLast_lineStarts (width : Nat) (units : List Nat) :
    (0 :: lineStarts width 0 units).getLast (List.cons_ne_nil _ _) =
      width * units.length - width * (units.reverse.takeWhile (· ≠ Source.lineEnd)).length := by
  induction units using List.reverseRecOn with
  | nil => simp [lineStarts]
  | append_singleton units unit ih =>
    by_cases h : unit = Source.lineEnd
    · simp [lineStarts_append, lineStarts, h, Nat.mul_succ]
    · simpa [lineStarts_append, lineStarts, h, Nat.mul_succ, Nat.add_sub_add_right] using ih

/-- A scan keeps a cursor sound and reaches the offset. -/
theorem Sound.scanTo (h : cursor.Sound source unit) {offset : Nat}
    (hoffset : source.Usable offset) :
    (cursor.scanTo source offset).Sound source unit ∧
      offset ≤ (cursor.scanTo source offset).scanned := by
  unfold Cursor.scanTo
  split
  · next hle => exact ⟨h, hle⟩
  · next hlt =>
    have hle : cursor.scanned ≤ offset := by omega
    refine ⟨⟨hoffset, ?_, h.mark_counts⟩, le_refl offset⟩
    -- the units up to the old end of the scan take up exactly the scanned bytes
    have hscanned := Source.unitWidth_mul_length_units source.usable_zero h.scanned_usable
    rw [Nat.sub_zero] at hscanned
    simp only [Array.toList_appendList]
    rw [← Source.units_append_units source.usable_zero h.scanned_usable (Nat.zero_le _) hle,
      lineStarts_append, hscanned, Nat.zero_add, ← List.cons_append, ← h.starts_eq]

/-! ## Looking up -/

/-- The line starts that a sound cursor knows are in order, without repetition. -/
theorem Sound.pairwise_starts (h : cursor.Sound source unit) :
    cursor.starts.toList.Pairwise (· < ·) := by
  have hwidth := source.encoding.unitWidth_pos
  rw [h.starts_eq]
  exact .cons (fun start hstart => (mem_lineStarts hwidth hstart).1)
    (pairwise_lineStarts hwidth 0 _)

/-- Where line starts are in order, the last line needs no search: all starts lie up to an offset
if the last one does. -/
theorem lineIndex_eq_startsUpTo (hsorted : cursor.starts.toList.Pairwise (· < ·)) (offset : Nat) :
    cursor.lineIndex offset = cursor.startsUpTo offset - 1 := by
  unfold lineIndex
  split
  · next last hlast =>
    split
    · next hle =>
      have hall : ∀ start ∈ cursor.starts.toList, start ≤ offset := by
        intro start hstart
        rw [← Array.getLast?_toList] at hlast
        have hlargest := (hsorted.imp Nat.le_of_lt).rel_getLast hstart
        rw [List.getLast_of_getLast?_eq_some hlast] at hlargest
        exact hlargest.trans hle
      rw [startsUpTo, List.takeWhile_eq_self_iff.mpr (by simpa using hall), Array.length_toList]
    · rfl
  · rfl

/-- A cursor that has scanned up to an offset knows the lines up to it. -/
theorem Sound.takeWhile_starts (h : cursor.Sound source unit) {offset : Nat}
    (hoffset : source.Usable offset) (hle : offset ≤ cursor.scanned) :
    cursor.starts.toList.takeWhile (· ≤ offset) =
      0 :: lineStarts source.encoding.unitWidth 0 (source.units 0 offset) := by
  have hwidth := source.encoding.unitWidth_pos
  have hlength := Source.unitWidth_mul_length_units source.usable_zero hoffset
  rw [Nat.sub_zero] at hlength
  rw [h.starts_eq, ← Source.units_append_units source.usable_zero hoffset (Nat.zero_le _) hle,
    lineStarts_append, hlength, Nat.zero_add, ← List.cons_append,
    List.takeWhile_append_of_pos]
  · -- what the scan found behind the offset is not taken
    have hbehind : (lineStarts source.encoding.unitWidth offset
        (source.units offset cursor.scanned)).takeWhile (· ≤ offset) = [] := by
      cases hstarts : lineStarts source.encoding.unitWidth offset
        (source.units offset cursor.scanned) with
      | nil => rfl
      | cons start rest =>
        have := (mem_lineStarts hwidth (hstarts ▸ List.mem_cons_self)).1
        exact List.takeWhile_cons_of_neg (by simpa using this)
    rw [hbehind, List.append_nil]
  · intro start hstart
    rcases List.mem_cons.mp hstart with rfl | hmem
    · simp
    · have := (mem_lineStarts hwidth hmem).2
      simp only [decide_eq_true_eq]
      omega

/-- A cursor that has scanned up to an offset knows its line: the index is the number of line ends
before the offset, whether or not the starts had to be searched for it. -/
theorem Sound.lineIndex (h : cursor.Sound source unit) {offset : Nat}
    (hoffset : source.Usable offset) (hle : offset ≤ cursor.scanned) :
    cursor.lineIndex offset = (source.units 0 offset).count Source.lineEnd := by
  rw [lineIndex_eq_startsUpTo h.pairwise_starts, startsUpTo, h.takeWhile_starts hoffset hle,
    List.length_cons, length_lineStarts, Nat.add_sub_cancel]

/-- The line with this index starts where the line of the offset does. -/
theorem Sound.lineStart (h : cursor.Sound source unit) {offset : Nat}
    (hoffset : source.Usable offset) (hle : offset ≤ cursor.scanned) :
    cursor.lineStart ((source.units 0 offset).count Source.lineEnd) =
      source.lineStart offset := by
  have hlength := Source.unitWidth_mul_length_units source.usable_zero hoffset
  rw [Nat.sub_zero] at hlength
  -- the line is the last of those that start up to the offset
  have hfound : (0 :: lineStarts source.encoding.unitWidth 0 (source.units 0 offset))[
      (source.units 0 offset).count Source.lineEnd]? = some (source.lineStart offset) := by
    have hlast := List.getLast?_eq_some_getLast (List.cons_ne_nil 0
      (lineStarts source.encoding.unitWidth 0 (source.units 0 offset)))
    rw [getLast_lineStarts, hlength, List.getLast?_eq_getElem?, List.length_cons,
      length_lineStarts, Nat.add_sub_cancel] at hlast
    exact hlast
  have hprefix := List.takeWhile_prefix (l := cursor.starts.toList) (· ≤ offset)
  rw [h.takeWhile_starts hoffset hle] at hprefix
  obtain ⟨hindex, hget⟩ := List.getElem?_eq_some_iff.mp hfound
  have hknown := List.prefix_iff_getElem?.mp hprefix _ hindex
  rw [hget, Array.getElem?_toList] at hknown
  rw [Cursor.lineStart, hknown, Option.getD_some]

/-- A sound cursor counts columns as they stand in the source, with or without its mark. -/
theorem Sound.columns (h : cursor.Sound source unit) (lineStart offset : Nat) :
    cursor.columns source unit lineStart offset =
      unit.count source.encoding (source.slice lineStart offset) := by
  unfold Cursor.columns
  split
  · next mark hmark =>
    obtain ⟨hstart, hend, hle, hcolumns⟩ := h.mark_counts mark hmark
    split
    · next huse =>
      rw [hcolumns, Source.count_add_count unit hstart hend hle huse.2, huse.1]
    · rfl
  · rfl

/-- A sound cursor locates an offset where its source does, and stays sound. -/
theorem Sound.locate (h : cursor.Sound source unit) (field : String) (offset : Nat) :
    (cursor.locate source unit field offset).1 = source.locate unit field offset ∧
      (cursor.locate source unit field offset).2.Sound source unit := by
  unfold Cursor.locate Source.locate
  cases hcheck : source.check field offset with
  | error failure => exact ⟨rfl, h⟩
  | ok _ =>
    have hoffset := (source.check_eq_ok_iff field offset).mp hcheck
    obtain ⟨hscan, hle⟩ := h.scanTo hoffset
    obtain ⟨hstart, hstartle, -, -⟩ := Source.lineStart_cut hoffset
    simp only [hscan.lineIndex hoffset hle, hscan.lineStart hoffset hle,
      hscan.columns (source.lineStart offset) offset]
    refine ⟨rfl, hscan.scanned_usable, hscan.starts_eq, ?_⟩
    intro mark hmark
    cases hmark
    exact ⟨hstart, hoffset, hstartle, rfl⟩

/-- A cursor that refuses an offset is left as it was. -/
theorem locate_eq_error {field : String} {offset : Nat} {failure : Failure}
    (h : (cursor.locate source unit field offset).1 = .error failure) :
    (cursor.locate source unit field offset).2 = cursor := by
  unfold Cursor.locate at h ⊢
  cases hcheck : source.check field offset with
  | error failure => rfl
  | ok _ =>
    rw [hcheck] at h
    cases h

/-! ## Runs of questions -/

/-- A question put to a cursor. -/
inductive Query where
  /-- Is this offset usable? -/
  | check (field : String) (offset : Nat)
  /-- Where does this offset lie? -/
  | locate (field : String) (offset : Nat)

/-- The answer to a question, and the cursor afterwards. -/
def ask (source : Source) (unit : ColumnUnit) (cursor : Cursor) :
    Query → Except Failure (Option Location) × Cursor
  | .check field offset => ((source.check field offset).map fun _ => none, cursor)
  | .locate field offset =>
    let (answer, cursor) := cursor.locate source unit field offset
    (answer.map some, cursor)

/-- A new cursor after questions that were asked in turn. -/
def afterAll (source : Source) (unit : ColumnUnit) (queries : List Query) : Cursor :=
  queries.foldl (fun cursor query => (ask source unit cursor query).2) {}

/-- One question keeps a cursor sound. -/
theorem Sound.ask (h : cursor.Sound source unit) (query : Query) :
    (cursor.ask source unit query).2.Sound source unit := by
  cases query with
  | check field offset => exact h
  | locate field offset => exact (h.locate field offset).2

/-- A cursor is sound after any questions. -/
theorem sound_afterAll (source : Source) (unit : ColumnUnit) (queries : List Query) :
    (afterAll source unit queries).Sound source unit := by
  unfold afterAll
  generalize hstart : ({} : Cursor) = start
  have h : start.Sound source unit := hstart ▸ sound_empty source unit
  clear hstart
  induction queries generalizing start with
  | nil => exact h
  | cons query rest ih => exact ih _ (h.ask query)

/-- After any questions a cursor locates an offset where its source does. -/
theorem fst_locate_afterAll (source : Source) (unit : ColumnUnit) (queries : List Query)
    (field : String) (offset : Nat) :
    ((afterAll source unit queries).locate source unit field offset).1 =
      source.locate unit field offset :=
  ((sound_afterAll source unit queries).locate field offset).1

/-- A refused question leaves no trace in the cursor. -/
theorem ask_eq_error {query : Query} {failure : Failure}
    (h : (cursor.ask source unit query).1 = .error failure) :
    (cursor.ask source unit query).2 = cursor := by
  cases query with
  | check field offset => rfl
  | locate field offset =>
    cases hanswer : (cursor.locate source unit field offset).1 with
    | error failure => exact locate_eq_error hanswer
    | ok location => simp [Cursor.ask, hanswer, Except.map] at h

/-- Whatever a cursor was asked before, it locates an offset by the source alone: it refuses an
offset behind the end or inside a code unit, and otherwise counts the line ends before the offset
and the columns since the last line start up to it. A refused question changes nothing. -/
theorem locate_afterAll (source : Source) (unit : ColumnUnit) (queries : List Query)
    (field : String) (offset : Nat) :
    ((afterAll source unit queries).locate source unit field offset).1 =
      (if source.bytes.size < offset then
        .error (.here (.offsetOutOfRange offset source.bytes.size))
      else if offset % source.encoding.unitWidth ≠ 0 then
        .error (.here (.invalidPosition .position field
          ("offset " ++ toString offset ++ " splits a " ++
            toString source.encoding.unitWidth ++ "-byte code unit")))
      else
        .ok ⟨UInt32.ofNat (min (1 + (source.units 0 offset).count Source.lineEnd) (2 ^ 32 - 1)),
          UInt32.ofNat (min (1 + unit.count source.encoding
            (source.slice (source.lineStart offset) offset)) (2 ^ 32 - 1))⟩) ∧
    (source.Usable offset →
      IsGreatest {start | source.IsLineStart start ∧ start ≤ offset} (source.lineStart offset)) ∧
    ∀ (earlier later : List Query) (query : Query) (failure : Failure),
      ((afterAll source unit earlier).ask source unit query).1 = .error failure →
        afterAll source unit (earlier ++ query :: later) =
          afterAll source unit (earlier ++ later) := by
  refine ⟨?_, Source.isGreatest_lineStart, ?_⟩
  · rw [fst_locate_afterAll]
    simp only [Source.locate, Source.check]
    by_cases hrange : source.bytes.size < offset
    · rw [if_pos hrange, if_pos hrange]
      rfl
    · rw [if_neg hrange, if_neg hrange]
      by_cases haligned : offset % source.encoding.unitWidth = 0
      · rw [if_pos haligned, if_neg (not_not.mpr haligned)]
        simp only [Nat.add_comm 1]
        rfl
      · rw [if_neg haligned, if_pos haligned]
        rfl
  · intro earlier later query failure hfails
    have hsame := ask_eq_error hfails
    unfold afterAll at hsame ⊢
    rw [List.foldl_append, List.foldl_cons, List.foldl_append, hsame]

/-- After going back to the start of a line and being refused an offset behind the end, a cursor
still finds the line. -/
theorem locate_afterAll_refused :
    let source : Source := ⟨#[0x61, 0, 0x0A, 0, 0x62, 0], .utf16LE⟩
    source.Usable 6 ∧ IsGreatest {start | source.IsLineStart start ∧ start ≤ 6} 4 ∧
    ((afterAll source .byte [.locate "end" 6, .locate "start" 4]).ask source .byte
      (.locate "end" 8)).1 = .error (.here (.offsetOutOfRange 8 6)) ∧
    afterAll source .byte [.locate "end" 6, .locate "start" 4, .locate "end" 8] =
      afterAll source .byte [.locate "end" 6, .locate "start" 4] := by
  intro source
  obtain ⟨-, hgreatest, hrefused⟩ := locate_afterAll source .byte [] "end" 6
  have husable : source.Usable 6 := ⟨by decide, by decide⟩
  have hstart : source.lineStart 6 = 4 := by decide
  have hfails : ((afterAll source .byte [.locate "end" 6, .locate "start" 4]).ask source .byte
      (.locate "end" 8)).1 = .error (.here (.offsetOutOfRange 8 6)) := rfl
  rw [hstart] at hgreatest
  exact ⟨husable, hgreatest husable, hfails,
    hrefused [.locate "end" 6, .locate "start" 4] [] (.locate "end" 8) _ hfails⟩

end CanonicalTree.Cursor
