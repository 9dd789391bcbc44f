import CanonicalTree.Proofs.Outcomes
import CanonicalTree.Schema.Convert
import Mathlib.Algebra.Group.Nat.Defs

/-!
# What a record says of its node

Kind, token and position of a node are read from single fields of its record, each reader stopping
at its first fault. Here the fields are described as such: which of them have to hold what, and what
is read from them if they do. A field that is missing or `null` says nothing.
-/

namespace CanonicalTree

/-- The value is neither a record nor a sequence. -/
def Json.IsScalar (value : Json) : Prop :=
  ∃ scalar : Scalar, value = scalar.toJson

/-- A value is a scalar exactly if it can be read as one. -/
theorem Json.isScalar_iff {value : Json} :
    value.IsScalar ↔ ∃ scalar, Scalar.ofJson? value = some scalar := by
  constructor
  · rintro ⟨scalar, rfl⟩
    exact ⟨scalar, Scalar.ofJson?_toJson scalar⟩
  · rintro ⟨scalar, hscalar⟩
    refine ⟨scalar, ?_⟩
    cases value <;> cases hscalar <;> rfl

theorem Json.not_isScalar_arr (items : List Json) : ¬ (Json.arr items).IsScalar := by
  rw [Json.isScalar_iff]
  rintro ⟨scalar, ⟨⟩⟩

theorem Json.not_isScalar_obj (record : Record) : ¬ (Json.obj record).IsScalar := by
  rw [Json.isScalar_iff]
  rintro ⟨scalar, ⟨⟩⟩

/-- A value is a scalar, a sequence or a record. -/
theorem Json.sorts (value : Json) :
    (∃ scalar : Scalar, value = scalar.toJson) ∨ (∃ items, value = .arr items) ∨
      ∃ record, value = .obj record := by
  cases value with
  | null => exact Or.inl ⟨.null, rfl⟩
  | bool flag => exact Or.inl ⟨.bool flag, rfl⟩
  | num number => exact Or.inl ⟨.num number, rfl⟩
  | str text => exact Or.inl ⟨.str text, rfl⟩
  | arr items => exact Or.inr (Or.inl ⟨items, rfl⟩)
  | obj record => exact Or.inr (Or.inr ⟨record, rfl⟩)

namespace Schema

variable {keys : Keys} {record : Record}

/-- What a record says under a key. -/
def given (record : Record) (key : String) : Option Json :=
  (Fields.get? record key).filter fun value => !value.isNull

/-! ## Kind and token -/

/-- The first of the token keys under which the record says something. -/
def tokenKey? (keys : Keys) (record : Record) : Option String :=
  keys.tokens.find? fun key => (given record key).isSome

/-- What the record says under that key. -/
def tokenValue? (keys : Keys) (record : Record) : Option Json :=
  (tokenKey? keys record).bind (given record)

/-- What the record says under that key, as text. -/
def tokenText? (keys : Keys) (record : Record) : Option String :=
  (tokenValue? keys record).bind fun value => (Scalar.ofJson? value).bind Scalar.text?

/-- The kind of a record is a string that is not empty. -/
theorem kind_eq_ok_iff {name : String} :
    kind keys record = .ok name ↔ Fields.get? record keys.kind = some (.str name) ∧ name ≠ "" := by
  unfold kind
  split
  · next text htext =>
    rw [htext]
    by_cases hempty : text = ""
    · have hisEmpty : text.isEmpty = true := String.isEmpty_iff.mpr hempty
      rw [if_pos hisEmpty]
      constructor
      · rintro ⟨⟩
      · rintro ⟨⟨⟩, hname⟩
        exact absurd hempty hname
    · have hnonempty : ¬ text.isEmpty = true := fun h => hempty (String.isEmpty_iff.mp h)
      rw [if_neg hnonempty]
      constructor
      · rintro ⟨⟩
        exact ⟨rfl, hempty⟩
      · rintro ⟨⟨⟩, -⟩
        rfl
  · next hother =>
    constructor
    · rintro ⟨⟩
    · rintro ⟨hname, -⟩
      exact absurd hname (hother name)

/-- The field of the token is the first candidate under which the record says something. -/
theorem tokenField?_eq (candidates : List String) (record : Record) :
    tokenField? candidates record =
      (candidates.find? fun key => (given record key).isSome).bind fun key =>
        (given record key).map fun value => (key, value) := by
  unfold tokenField?
  induction candidates with
  | nil => rfl
  | cons key rest ih =>
    rw [List.findSome?_cons, List.find?_cons, ih]
    cases hget : Fields.get? record key with
    | none => simp [given, hget]
    | some value => cases value <;> simp [given, hget, Json.isNull, Option.filter]

theorem text?_isSome {value : Json} {scalar : Scalar} (hnull : value.isNull = false)
    (h : Scalar.ofJson? value = some scalar) : ∃ text, scalar.text? = some text := by
  cases value <;> cases h
  · cases hnull
  · exact ⟨_, rfl⟩
  · exact ⟨_, rfl⟩
  · exact ⟨_, rfl⟩

/-- Under the key of the token the record says something. -/
theorem exists_tokenValue {key : String} (h : tokenKey? keys record = some key) :
    ∃ value, given record key = some value ∧ tokenValue? keys record = some value ∧
      value.isNull = false := by
  have hsome : (given record key).isSome = true :=
    List.find?_some (p := fun key => (given record key).isSome) h
  obtain ⟨value, hgiven⟩ := Option.isSome_iff_exists.mp hsome
  refine ⟨value, hgiven, by simp [tokenValue?, h, hgiven], ?_⟩
  have := (Option.filter_eq_some_iff.mp hgiven).2
  simpa using this

/-- A token can be read if what is said under the first token key that says something is a
scalar. -/
theorem token_eq_ok_iff {found : Option (String × String)} :
    token keys record = .ok found ↔
      (∀ value, tokenValue? keys record = some value → value.IsScalar) ∧
      found.map Prod.fst = tokenKey? keys record ∧ found.map Prod.snd = tokenText? keys record := by
  unfold token
  rw [tokenField?_eq, ← tokenKey?]
  cases hkey : tokenKey? keys record with
  | none =>
    have hvalue : tokenValue? keys record = none := by simp [tokenValue?, hkey]
    rw [tokenText?, hvalue]
    cases found <;> simp
  | some key =>
    obtain ⟨value, hgiven, hvalue, hnull⟩ := exists_tokenValue hkey
    rw [tokenText?, hvalue]
    simp only [Option.bind_some, hgiven, Option.map_some, Option.some.injEq, forall_eq']
    cases hscalar : Scalar.ofJson? value with
    | none =>
      have hnot : ¬ value.IsScalar := by
        rw [Json.isScalar_iff, hscalar]
        simp
      simp [hnot]
    | some scalar =>
      obtain ⟨text, htext⟩ := text?_isSome hnull hscalar
      have hyes : value.IsScalar := Json.isScalar_iff.mpr ⟨scalar, hscalar⟩
      cases found with
      | none => simp [htext]
      | some pair =>
        obtain ⟨name, content⟩ := pair
        simp [htext, hyes, eq_comm]

/-- If the value of the token is a scalar, there is a token with a key and a text. -/
theorem exists_token (h : ∀ value, tokenValue? keys record = some value → value.IsScalar) :
    ∃ found : Option (String × String),
      found.map Prod.fst = tokenKey? keys record ∧ found.map Prod.snd = tokenText? keys record := by
  cases hkey : tokenKey? keys record with
  | none => exact ⟨none, rfl, by simp [tokenText?, tokenValue?, hkey]⟩
  | some key =>
    obtain ⟨value, -, hvalue, hnull⟩ := exists_tokenValue hkey
    obtain ⟨scalar, hscalar⟩ := Json.isScalar_iff.mp (h value hvalue)
    obtain ⟨text, htext⟩ := text?_isSome hnull hscalar
    exact ⟨some (key, text), rfl, by simp [tokenText?, hvalue, hscalar, htext]⟩

/-! ## Positions -/

/-- What a record says under a key, if there is such a key. -/
def givenAt (record : Record) (key : Option String) : Option Json :=
  key.bind (given record)

/-- The whole number that a record holds under a key. -/
def wholeAt (record : Record) (key : Option String) : Option UInt64 :=
  (givenAt record key).bind fun
    | .num (.whole n) => some n
    | _ => none

/-- The record says nothing under the key, or a whole number. -/
def HoldsWhole (record : Record) (key : Option String) : Prop :=
  ∀ value, givenAt record key = some value → ∃ n, value = .num (.whole n)

/-- The record says nothing under the key, or a line or column. -/
def HoldsCount (record : Record) (key : Option String) : Prop :=
  ∀ value, givenAt record key = some value →
    ∃ n : UInt64, value = .num (.whole n) ∧ 1 ≤ n.toNat ∧ n.toNat ≤ 2 ^ 32 - 1

/-- The positional fields fit together: they hold numbers, nothing else is said without the start
offset, no line or column of the end without the end offset, and the end does not lie before the
start. -/
structure Positioned (keys : Keys) (record : Record) : Prop where
  offsets : ∀ key ∈ [keys.offset, keys.endOffset], HoldsWhole record key
  counts : ∀ key ∈ [keys.line, keys.column, keys.endLine, keys.endColumn], HoldsCount record key
  with_start : givenAt record keys.offset = none →
    ∀ key ∈ [keys.endOffset, keys.line, keys.column, keys.endLine, keys.endColumn],
      givenAt record key = none
  with_stop : givenAt record keys.endOffset = none →
    ∀ key ∈ [keys.endLine, keys.endColumn], givenAt record key = none
  ordered : ∀ start stop, givenAt record keys.offset = some (.num (.whole start)) →
    givenAt record keys.endOffset = some (.num (.whole stop)) → start ≤ stop

/-- The span that the positional fields describe. -/
def spanOf (keys : Keys) (record : Record) : Option Span :=
  (wholeAt record keys.offset).map fun start =>
    { start :=
        { offset := start
          line := (wholeAt record keys.line).map UInt64.toUInt32
          column := (wholeAt record keys.column).map UInt64.toUInt32 }
      stop := (wholeAt record keys.endOffset).map fun stop =>
        { offset := stop
          line := (wholeAt record keys.endLine).map UInt64.toUInt32
          column := (wholeAt record keys.endColumn).map UInt64.toUInt32 } }

/-- A whole number is found under a key if the record says just that. -/
theorem wholeAt_eq_some_iff {key : Option String} {n : UInt64} :
    wholeAt record key = some n ↔ givenAt record key = some (.num (.whole n)) := by
  unfold wholeAt
  cases givenAt record key with
  | none => simp
  | some value =>
    cases value with
    | num number => cases number <;> simp
    | _ => simp

/-- Where only numbers are said, no number means that nothing is said. -/
theorem HoldsWhole.eq_none_iff {key : Option String} (h : HoldsWhole record key) :
    wholeAt record key = none ↔ givenAt record key = none := by
  unfold wholeAt
  cases hgiven : givenAt record key with
  | none => simp
  | some value =>
    obtain ⟨n, rfl⟩ := h value hgiven
    simp

theorem HoldsCount.holdsWhole {key : Option String} (h : HoldsCount record key) :
    HoldsWhole record key := by
  intro value hvalue
  obtain ⟨n, hn, -⟩ := h value hvalue
  exact ⟨n, hn⟩

/-- An offset is read if the record says nothing under the key, or a whole number. -/
theorem word_eq_ok_iff {key : Option String} {n : Option UInt64} :
    word record key = .ok n ↔ HoldsWhole record key ∧ n = wholeAt record key := by
  unfold word HoldsWhole wholeAt givenAt
  cases key with
  | none => simp [eq_comm]
  | some key =>
    simp only [Option.bind_some, given]
    cases Fields.get? record key with
    | none => simp [eq_comm]
    | some value =>
      cases value with
      | num number => cases number <;> simp [Option.filter, Json.isNull, eq_comm]
      | null => simp [Option.filter, Json.isNull, eq_comm]
      | _ => simp [Option.filter, Json.isNull]

/-- A line or column is read if the record says nothing under the key, or a number that can be one.
-/
theorem lineOrColumn_eq_ok_iff {key : Option String} {n : Option UInt32} :
    lineOrColumn record key = .ok n ↔
      HoldsCount record key ∧ n = (wholeAt record key).map UInt64.toUInt32 := by
  unfold lineOrColumn
  cases hword : word record key with
  | error failure =>
    have hnot : ¬ HoldsCount record key := by
      intro hcount
      have hok := (word_eq_ok_iff (n := wholeAt record key)).mpr ⟨hcount.holdsWhole, rfl⟩
      rw [hword] at hok
      cases hok
    simp [hnot]
  | ok found =>
    obtain ⟨hwhole, rfl⟩ := word_eq_ok_iff.mp hword
    cases hfound : wholeAt record key with
    | none =>
      have hcount : HoldsCount record key := by
        intro value hvalue
        rw [hwhole.eq_none_iff.mp hfound] at hvalue
        cases hvalue
      simp [hcount, eq_comm]
    | some number =>
      have hgiven := wholeAt_eq_some_iff.mp hfound
      have hcount : HoldsCount record key ↔ 1 ≤ number.toNat ∧ number.toNat ≤ 2 ^ 32 - 1 := by
        constructor
        · intro h
          obtain ⟨m, heq, hm⟩ := h _ hgiven
          cases heq
          exact hm
        · intro h value hvalue
          rw [hgiven] at hvalue
          cases hvalue
          exact ⟨number, rfl, h⟩
      have hzero : number = 0 ↔ number.toNat = 0 := by
        rw [← UInt64.toNat_inj]
        rfl
      rw [hcount]
      simp only [hzero, UInt32.size]
      split
      · next h => simp [h]
      · next h =>
        split
        · next hlt =>
          have hrange : 1 ≤ number.toNat ∧ number.toNat ≤ 2 ^ 32 - 1 := by omega
          rw [and_iff_right hrange, Option.map_some, Except.ok.injEq]
          exact eq_comm
        · next hge =>
          have hrange : ¬ (1 ≤ number.toNat ∧ number.toNat ≤ 2 ^ 32 - 1) := by omega
          constructor
          · rintro ⟨⟩
          · rintro ⟨hcounted, -⟩
            exact absurd hcounted hrange

/-- What the positional fields say, taken together. -/
def readingOf (keys : Keys) (record : Record) : Reading where
  offset := wholeAt record keys.offset
  endOffset := wholeAt record keys.endOffset
  line := (wholeAt record keys.line).map UInt64.toUInt32
  column := (wholeAt record keys.column).map UInt64.toUInt32
  endLine := (wholeAt record keys.endLine).map UInt64.toUInt32
  endColumn := (wholeAt record keys.endColumn).map UInt64.toUInt32

/-- The positional fields are read if each of them can be. -/
theorem reading_eq_ok_iff {r : Reading} :
    reading keys record = .ok r ↔
      (∀ key ∈ [keys.offset, keys.endOffset], HoldsWhole record key) ∧
      (∀ key ∈ [keys.line, keys.column, keys.endLine, keys.endColumn], HoldsCount record key) ∧
      r = readingOf keys record := by
  unfold reading readingOf
  simp only [bind_eq_ok_iff, pure_eq_ok_iff, word_eq_ok_iff, lineOrColumn_eq_ok_iff,
    List.forall_mem_cons, List.not_mem_nil, false_implies, implies_true, and_true]
  constructor
  · rintro ⟨_, ⟨hoffset, rfl⟩, _, ⟨hend, rfl⟩, _, ⟨hline, rfl⟩, _, ⟨hcolumn, rfl⟩, _,
      ⟨hendLine, rfl⟩, _, ⟨hendColumn, rfl⟩, rfl⟩
    exact ⟨⟨hoffset, hend⟩, ⟨hline, hcolumn, hendLine, hendColumn⟩, rfl⟩
  · rintro ⟨⟨hoffset, hend⟩, ⟨hline, hcolumn, hendLine, hendColumn⟩, rfl⟩
    exact ⟨_, ⟨hoffset, rfl⟩, _, ⟨hend, rfl⟩, _, ⟨hline, rfl⟩, _, ⟨hcolumn, rfl⟩, _,
      ⟨hendLine, rfl⟩, _, ⟨hendColumn, rfl⟩, rfl⟩

/-- No field is found to be present exactly if the record says nothing under any of the keys. -/
theorem firstPresent_eq_none_iff {candidates : List (Option String)}
    (h : ∀ key ∈ candidates, HoldsWhole record key) :
    firstPresent (candidates.map fun key => ((wholeAt record key).isSome, key)) = none ↔
      ∀ key ∈ candidates, givenAt record key = none := by
  unfold firstPresent
  rw [List.findSome?_eq_none_iff, List.forall_mem_map]
  refine forall₂_congr fun key hkey => ?_
  rw [← (h key hkey).eq_none_iff]
  cases key with
  | none => simp [wholeAt, givenAt]
  | some key => cases wholeAt record (some key) <;> simp

/-- The end of a position is read if it has an offset that does not lie before the start, or
nothing. -/
theorem stop_eq_ok_iff (start : UInt64) (stop : Option Point)
    (hend : HoldsWhole record keys.endOffset)
    (hcounts : ∀ key ∈ [keys.endLine, keys.endColumn], HoldsCount record key) :
    (readingOf keys record).stop keys start = .ok stop ↔
      (givenAt record keys.endOffset = none →
        ∀ key ∈ [keys.endLine, keys.endColumn], givenAt record key = none) ∧
      (∀ stop, wholeAt record keys.endOffset = some stop → start ≤ stop) ∧
      stop = (wholeAt record keys.endOffset).map fun stop =>
        { offset := stop
          line := (wholeAt record keys.endLine).map UInt64.toUInt32
          column := (wholeAt record keys.endColumn).map UInt64.toUInt32 } := by
  have hpresent := firstPresent_eq_none_iff fun key hkey => (hcounts key hkey).holdsWhole
  simp only [List.map_cons, List.map_nil] at hpresent
  rw [← hend.eq_none_iff]
  simp only [Reading.stop, readingOf, Option.isSome_map]
  cases hstop : wholeAt record keys.endOffset with
  | none =>
    simp only [true_implies, reduceCtorEq, false_implies, implies_true, true_and, Option.map_none,
      ← hpresent]
    split
    · next key hkey => simp [hkey]
    · next hnone => simp [hnone, eq_comm]
  | some offset =>
    by_cases hlt : offset < start
    · have hnot : ¬ start ≤ offset := UInt64.not_le.mpr hlt
      simp [hlt, hnot]
    · have hle : start ≤ offset := UInt64.not_lt.mp hlt
      simp [hlt, hle, eq_comm]

/-- The position is read exactly if the positional fields fit together. -/
theorem span_eq_ok_iff {span : Option Span}
    (hoffsets : ∀ key ∈ [keys.offset, keys.endOffset], HoldsWhole record key)
    (hcounts : ∀ key ∈ [keys.line, keys.column, keys.endLine, keys.endColumn],
      HoldsCount record key) :
    (readingOf keys record).span keys = .ok span ↔
      Positioned keys record ∧ span = spanOf keys record := by
  have hstart : HoldsWhole record keys.offset := hoffsets _ List.mem_cons_self
  have hend : HoldsWhole record keys.endOffset := hoffsets _ (by simp)
  have hwholes : ∀ key ∈ [keys.endOffset, keys.line, keys.column, keys.endLine, keys.endColumn],
      HoldsWhole record key :=
    List.forall_mem_cons.mpr ⟨hend, fun key hkey => (hcounts key hkey).holdsWhole⟩
  have hpresent := firstPresent_eq_none_iff hwholes
  have hstop := fun start stop => stop_eq_ok_iff start stop hend fun key hkey =>
    hcounts key (List.mem_cons_of_mem _ (List.mem_cons_of_mem _ hkey))
  simp only [List.map_cons, List.map_nil] at hpresent
  unfold Reading.span spanOf
  cases hoffset : wholeAt record keys.offset with
  | none =>
    -- without a start there is no position, and nothing else may be said
    have hmissing := hstart.eq_none_iff.mp hoffset
    simp only [readingOf, hoffset, Option.isSome_map, Option.map_none]
    constructor
    · intro h
      split at h
      · cases h
      · next hnone =>
        cases h
        have hall := hpresent.mp hnone
        have hends : ∀ key ∈ [keys.endLine, keys.endColumn], givenAt record key = none :=
          fun key hkey => hall key
            (List.mem_cons_of_mem _ (List.mem_cons_of_mem _ (List.mem_cons_of_mem _ hkey)))
        refine ⟨⟨hoffsets, hcounts, fun _ => hall, fun _ => hends, ?_⟩, rfl⟩
        intro start stop hgiven
        rw [hmissing] at hgiven
        cases hgiven
    · rintro ⟨hpositioned, rfl⟩
      rw [hpresent.mpr (hpositioned.with_start hmissing)]
  | some start =>
    have hgiven := wholeAt_eq_some_iff.mp hoffset
    have hread : (readingOf keys record).offset = some start := hoffset
    simp only [hread, bind_eq_ok_iff, pure_eq_ok_iff, hstop]
    constructor
    · rintro ⟨stop, ⟨hwithStop, hordered, rfl⟩, rfl⟩
      refine ⟨⟨hoffsets, hcounts, ?_, hwithStop, ?_⟩, rfl⟩
      · intro hnone
        rw [hgiven] at hnone
        cases hnone
      · intro first last hfirst hlast
        rw [hgiven] at hfirst
        cases hfirst
        exact hordered last (wholeAt_eq_some_iff.mpr hlast)
    · rintro ⟨hpositioned, rfl⟩
      refine ⟨_, ⟨hpositioned.with_stop, fun stop hstop => ?_, rfl⟩, rfl⟩
      exact hpositioned.ordered start stop hgiven (wholeAt_eq_some_iff.mp hstop)

/-- A position can be read if the positional fields fit together, and then it is what they
describe. -/
theorem position_eq_ok_iff {span : Option Span} :
    position keys record = .ok span ↔ Positioned keys record ∧ span = spanOf keys record := by
  unfold position
  rw [bind_eq_ok_iff]
  constructor
  · rintro ⟨r, hreading, hspan⟩
    obtain ⟨hoffsets, hcounts, rfl⟩ := reading_eq_ok_iff.mp hreading
    exact (span_eq_ok_iff hoffsets hcounts).mp hspan
  · rintro ⟨hpositioned, hspan⟩
    refine ⟨readingOf keys record, ?_, ?_⟩
    · exact reading_eq_ok_iff.mpr ⟨hpositioned.offsets, hpositioned.counts, rfl⟩
    · exact (span_eq_ok_iff hpositioned.offsets hpositioned.counts).mpr ⟨hpositioned, hspan⟩

/-! ## The other fields -/

/-- The field is taken up by kind, position or token, or it is a token field without content. -/
def Lifts (keys : Keys) (record : Record) (field : String × Json) : Prop :=
  field.1 = keys.kind ∨ some field.1 ∈ keys.positional ∨ tokenKey? keys record = some field.1 ∨
    (field.2.isNull = true ∧ field.1 ∈ keys.tokens)

instance (keys : Keys) (record : Record) (field : String × Json) :
    Decidable (Lifts keys record field) :=
  inferInstanceAs (Decidable (_ ∨ _))

/-- The fields that are left to contribute to the node, in order. -/
def remaining (keys : Keys) (record : Record) : Record :=
  record.filter fun field => ¬ Lifts keys record field

theorem mem_remaining {field : String × Json} :
    field ∈ remaining keys record ↔ field ∈ record ∧ ¬ Lifts keys record field := by
  simp [remaining]

/-- The fields that conversion goes on with are the remaining ones. -/
theorem filter_isLifted (keys : Keys) (record : Record) :
    (record.filter fun field => !isLifted keys (tokenKey? keys record) field) =
      remaining keys record := by
  refine List.filter_congr fun field _ => ?_
  simp [isLifted, Lifts, Keys.isPositional, Bool.and_assoc]

end Schema

end CanonicalTree
