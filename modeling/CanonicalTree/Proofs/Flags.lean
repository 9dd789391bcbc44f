import CanonicalTree.Proofs.Edits
import CanonicalTree.Schema.Repair
import Mathlib.Data.List.Dedup
import Mathlib.Data.List.Perm.Basic

/-!
# Flags as sets

The repair of flags refuses a record exactly if an entry among the flags is no string, and names the
first such entry. Otherwise it leaves everything but the flags as it is. What it does under one name
neither helps nor hinders what it does under another, and doing it twice is doing it once. So of
several such repairs it only counts which names they are about (`flags_laws`).
-/

namespace CanonicalTree

/-! ## Steps whose order does not count -/

section Steps

variable {ι α : Type}

/-- The outcome of several steps, none if one of them gives none. -/
def runSteps (step : ι → α → Option α) (items : List ι) (start : Option α) : Option α :=
  items.foldl (fun state item => state.bind (step item)) start

variable {step : ι → α → Option α}

theorem runSteps_cons (item : ι) (items : List ι) (start : Option α) :
    runSteps step (item :: items) start = runSteps step items (start.bind (step item)) := rfl

theorem runSteps_append (items others : List ι) (start : Option α) :
    runSteps step (items ++ others) start = runSteps step others (runSteps step items start) :=
  List.foldl_append

theorem runSteps_none (items : List ι) : runSteps step items none = none := by
  induction items with
  | nil => rfl
  | cons item rest ih => rw [runSteps_cons, Option.bind_none, ih]

variable (hcomm : ∀ i j a, (step i a).bind (step j) = (step j a).bind (step i))

include hcomm

/-- The order of steps that commute does not matter. -/
theorem runSteps_perm {items others : List ι} (h : items.Perm others) (start : Option α) :
    runSteps step items start = runSteps step others start := by
  have hright : RightCommutative fun (state : Option α) item => state.bind (step item) := by
    refine ⟨fun state i j => ?_⟩
    cases state with
    | none => rfl
    | some a => exact hcomm i j a
  exact h.foldl_eq start

variable (hidem : ∀ i a b, step i a = some b → step i b = some b)

include hidem

/-- A step that comes again later need not be taken now. -/
theorem runSteps_cons_of_mem [DecidableEq ι] {item : ι} {items : List ι} (h : item ∈ items)
    (start : Option α) : runSteps step (item :: items) start = runSteps step items start := by
  have hperm := List.perm_cons_erase h
  have htwice : (start.bind (step item)).bind (step item) = start.bind (step item) := by
    cases hfirst : start.bind (step item) with
    | none => rfl
    | some b =>
      obtain ⟨a, -, hstep⟩ := Option.bind_eq_some_iff.mp hfirst
      exact hidem item a b hstep
  calc runSteps step (item :: items) start
      = runSteps step (item :: item :: items.erase item) start :=
        runSteps_perm hcomm (hperm.cons item) start
    _ = runSteps step (item :: items.erase item) start := by
        rw [runSteps_cons, runSteps_cons, htwice, runSteps_cons]
    _ = runSteps step items start := runSteps_perm hcomm hperm.symm start

/-- Steps that are idempotent and commute need not be taken twice. -/
theorem runSteps_dedup [DecidableEq ι] (items : List ι) (start : Option α) :
    runSteps step items.dedup start = runSteps step items start := by
  induction items generalizing start with
  | nil => rfl
  | cons item rest ih =>
    by_cases h : item ∈ rest
    · rw [List.dedup_cons_of_mem h, ih, runSteps_cons_of_mem hcomm hidem h]
    · rw [List.dedup_cons_of_notMem h, runSteps_cons, runSteps_cons, ih]

/-- Steps that commute, and that come to nothing new when they are repeated, may be taken in any
order and any number of times. -/
theorem runSteps_eq_of_mem_iff [DecidableEq ι] {items others : List ι}
    (h : ∀ item, item ∈ items ↔ item ∈ others) (start : Option α) :
    runSteps step items start = runSteps step others start := by
  have hperm : items.dedup.Perm others.dedup := by
    refine (List.perm_ext_iff_of_nodup items.nodup_dedup others.nodup_dedup).mpr fun item => ?_
    rw [List.mem_dedup, List.mem_dedup, h item]
  rw [← runSteps_dedup hcomm hidem items, runSteps_perm hcomm hperm,
    runSteps_dedup hcomm hidem others]

end Steps

namespace Repair

/-! ## One sequence of flags -/

/-- All entries are strings, or there is a first that is none. -/
theorem entries_cases (entries : List Json) :
    (∃ flags : List String, entries = flags.map .str) ∨
      ∃ (flags : List String) (other : Json) (rest : List Json),
        entries = flags.map .str ++ other :: rest ∧ other.asString? = none := by
  induction entries with
  | nil => exact Or.inl ⟨[], rfl⟩
  | cons entry rest ih =>
    cases hentry : entry.asString? with
    | none => exact Or.inr ⟨[], entry, rest, rfl, hentry⟩
    | some flag =>
      obtain rfl : entry = .str flag := by
        cases entry with
        | str text => exact congrArg _ (Option.some.inj hentry)
        | _ => cases hentry
      rcases ih with ⟨flags, rfl⟩ | ⟨flags, other, rest, rfl, hother⟩
      · exact Or.inl ⟨flag :: flags, rfl⟩
      · exact Or.inr ⟨flag :: flags, other, rest, rfl, hother⟩

/-- The flags as a record, each at its first place. -/
def setOf (flags : List String) : Record :=
  flags.eraseDups.map fun flag => (flag, .bool true)

/-- One more flag joins the set of those before it. -/
theorem insert_setOf (flags : List String) (flag : String) :
    Fields.insert (setOf flags) flag (.bool true) = setOf (flags ++ [flag]) := by
  have hkeys : Fields.keys (setOf flags) = flags.eraseDups := by
    simp [setOf, Fields.keys, Function.comp_def]
  by_cases h : flag ∈ flags
  · have hknown : Fields.get? (setOf flags) flag = some (.bool true) := by
      have hmem : flag ∈ Fields.keys (setOf flags) := by rwa [hkeys, List.mem_eraseDups]
      obtain ⟨value, hvalue⟩ :=
        Option.isSome_iff_exists.mp ((Fields.get?_isSome_iff _ flag).mpr hmem)
      obtain ⟨_, -, heq⟩ := List.mem_map.mp (Fields.mem_of_get? hvalue)
      rw [hvalue, ← (Prod.mk.inj heq).2]
    rw [Fields.insert_of_get? hknown, setOf, setOf, List.eraseDups_append]
    simp [List.removeAll, h]
  · have hnew : flag ∉ Fields.keys (setOf flags) := by rwa [hkeys, List.mem_eraseDups]
    rw [Fields.insert_of_notMem _ hnew, setOf, setOf, List.eraseDups_append]
    simp [List.removeAll, h, List.eraseDups_cons]

theorem flagSet_strings (field : String) (i : Nat) (done flags : List String) :
    flagSet field i (setOf done) (flags.map .str) = .ok (setOf (done ++ flags)) := by
  induction flags generalizing i done with
  | nil => rw [List.map_nil, flagSet, List.append_nil]
  | cons flag rest ih => rw [List.map_cons, flagSet, insert_setOf, ih, List.append_assoc,
      List.singleton_append]

/-- The fault at an entry that is no string, given its index. -/
def strayEntry (field : String) (i : Nat) (other : Json) : RepairFault :=
  ⟨field, "entry " ++ toString i ++ " is not a string: " ++ other.text⟩

theorem flagSet_stray {field : String} (i : Nat) (done : Record) (flags : List String)
    {other : Json} (rest : List Json) (h : other.asString? = none) :
    flagSet field i done (flags.map .str ++ other :: rest) =
      .error (strayEntry field (i + flags.length) other) := by
  induction flags generalizing i done with
  | nil =>
    cases other with
    | str text => cases h
    | _ => rfl
  | cons flag others ih =>
    rw [List.map_cons, List.cons_append, flagSet, ih, List.length_cons, Nat.add_right_comm,
      Nat.add_assoc]

/-! ## One record -/

/-- The entries under the field are flags up to this one, which is no string. -/
def HoldsStray (record : Record) (field : String) (flags : List String) (other : Json) : Prop :=
  ∃ rest, Fields.get? record field = some (.arr (flags.map .str ++ other :: rest)) ∧
    other.asString? = none

/-- The record with its flags as a set, the rest as it was. -/
structure Flagged (field : String) (record after : Record) : Prop where
  keys_eq : Fields.keys after = Fields.keys record
  get?_eq : ∀ key, key ≠ field → Fields.get? after key = Fields.get? record key
  flags_eq : ∀ flags : List String, Fields.get? record field = some (.arr (flags.map .str)) →
    Fields.get? after field = some (.obj (flags.eraseDups.map fun flag => (flag, .bool true)))
  eq_self : (∀ entries, Fields.get? record field ≠ some (.arr entries)) → after = record

/-- A sequence of strings is replaced by its set, in place. -/
theorem run_flags_of_strings {field : String} {record : Record} {flags : List String}
    (h : Fields.get? record field = some (.arr (flags.map .str))) :
    (Repair.flags field).run record = .ok (Fields.insert record field (.obj (setOf flags))) := by
  have hset : flagSet field 0 [] (flags.map .str) = .ok (setOf flags) :=
    flagSet_strings field 0 [] flags
  simp only [Repair.flags, h, hset]
  rfl

/-- A sequence with another entry is refused, and the refusal says which. -/
theorem run_flags_of_stray {field : String} {record : Record} {flags : List String} {other : Json}
    (h : HoldsStray record field flags other) :
    (Repair.flags field).run record = .error (strayEntry field flags.length other) := by
  obtain ⟨rest, hentries, hother⟩ := h
  have hset : flagSet field 0 [] (flags.map .str ++ other :: rest) =
      .error (strayEntry field (0 + flags.length) other) := flagSet_stray 0 [] flags rest hother
  simp only [Repair.flags, hentries, hset, Nat.zero_add]
  rfl

theorem run_flags_of_other {field : String} {record : Record}
    (h : ∀ entries, Fields.get? record field ≠ some (.arr entries)) :
    (Repair.flags field).run record = .ok record := by
  simp only [Repair.flags]

/-- What stands under the field is a sequence of flags, a sequence with another entry, or none. -/
theorem flags_cases (field : String) (record : Record) :
    (∃ flags : List String, Fields.get? record field = some (.arr (flags.map .str))) ∨
      (∃ flags other, HoldsStray record field flags other) ∨
        ∀ entries, Fields.get? record field ≠ some (.arr entries) := by
  by_cases h : ∃ entries, Fields.get? record field = some (.arr entries)
  · obtain ⟨entries, hentries⟩ := h
    rcases entries_cases entries with ⟨flags, rfl⟩ | ⟨flags, other, rest, rfl, hother⟩
    · exact Or.inl ⟨flags, hentries⟩
    · exact Or.inr (Or.inl ⟨flags, other, rest, hentries, hother⟩)
  · exact Or.inr (Or.inr (not_exists.mp h))

/-- The repair refuses exactly the sequences with an entry that is no string. -/
theorem run_flags_eq_error_iff {field : String} {record : Record} {fault : RepairFault} :
    (Repair.flags field).run record = .error fault ↔
      ∃ flags other, HoldsStray record field flags other ∧
        fault = strayEntry field flags.length other := by
  constructor
  · intro h
    rcases flags_cases field record with ⟨flags, hflags⟩ | ⟨flags, other, hstray⟩ | hother
    · rw [run_flags_of_strings hflags] at h
      cases h
    · rw [run_flags_of_stray hstray] at h
      exact ⟨flags, other, hstray, (Except.error.inj h).symm⟩
    · rw [run_flags_of_other hother] at h
      cases h
  · rintro ⟨flags, other, hstray, rfl⟩
    exact run_flags_of_stray hstray

/-- A repaired record differs only in the field of the flags. -/
theorem flagged_of_run_eq_ok {field : String} {record after : Record}
    (h : (Repair.flags field).run record = .ok after) : Flagged field record after := by
  rcases flags_cases field record with ⟨flags, hflags⟩ | ⟨flags, other, hstray⟩ | hother
  · rw [run_flags_of_strings hflags] at h
    obtain rfl := Except.ok.inj h
    refine ⟨?_, fun key hkey => Fields.get?_insert_of_ne record _ hkey, fun others hothers => ?_,
      fun hnone => absurd hflags (hnone _)⟩
    · have hmem : field ∈ Fields.keys record := by
        rw [← Fields.get?_isSome_iff, hflags]
        rfl
      rw [Fields.keys_insert, if_pos hmem]
    · rw [hflags, Option.some.injEq, Json.arr.injEq] at hothers
      have hsame : flags = others := List.map_injective_iff.mpr (fun _ _ => Json.str.inj) hothers
      rw [Fields.get?_insert_self, hsame, setOf]
  · rw [run_flags_of_stray hstray] at h
    cases h
  · rw [run_flags_of_other hother] at h
    obtain rfl := Except.ok.inj h
    exact ⟨rfl, fun _ _ => rfl, fun flags hflags => absurd hflags (hother _), fun _ => rfl⟩

/-! ## A record that is kept -/

/-- Store the set of the flags that stand under a field. All entries are looked at before the record
is written to. -/
def storeFlags (field : String) : Option Json → ExceptT RepairFault (StateM Record) Unit
  | some (.arr entries) => do
    let set ← MonadExcept.ofExcept (flagSet field 0 [] entries)
    modify fun record => Fields.insert record field (.obj set)
  | _ => pure ()

/-- The repair of flags, carried out on a record that is kept even if the repair fails. -/
def flagsInPlace (field : String) : ExceptT RepairFault (StateM Record) Unit := do
  let record ← get
  storeFlags field (Fields.get? record field)

/-- In place the repair comes to the same, and a refusal leaves the record as it was. -/
theorem flagsInPlace_run (field : String) (record : Record) :
    (flagsInPlace field).run.run record =
      match (Repair.flags field).run record with
      | .ok after => (.ok (), after)
      | .error fault => (.error fault, record) := by
  show (storeFlags field (Fields.get? record field)).run.run record = _
  simp only [Repair.flags]
  cases Fields.get? record field with
  | none => rfl
  | some value =>
    cases value with
    | arr entries =>
      simp only [storeFlags]
      cases flagSet field 0 [] entries <;> rfl
    | _ => rfl

/-! ## Several fields -/

/-- The record after the repair of one field, if it is not refused. -/
def tidied (field : String) (record : Record) : Option Record :=
  ((Repair.flags field).run record).toOption

/-- What becomes of a record depends on what stands under the field: all records with the same there
are refused, left alone, or given the same set. -/
theorem tidied_cases (field : String) (record : Record) :
    (∀ same, Fields.get? same field = Fields.get? record field → tidied field same = none) ∨
      (∀ same, Fields.get? same field = Fields.get? record field →
        tidied field same = some same) ∨
        ∃ value, field ∈ Fields.keys record ∧
          ∀ same, Fields.get? same field = Fields.get? record field →
            tidied field same = some (Fields.insert same field value) := by
  rcases flags_cases field record with ⟨flags, hflags⟩ | ⟨flags, other, rest, hrest⟩ | hother
  · refine Or.inr (Or.inr ⟨.obj (setOf flags), ?_, fun same hsame => ?_⟩)
    · rw [← Fields.get?_isSome_iff, hflags]
      rfl
    · rw [tidied, run_flags_of_strings (hsame.trans hflags)]
      rfl
  · refine Or.inl fun same hsame => ?_
    rw [← hsame] at hrest
    rw [tidied, run_flags_of_stray ⟨rest, hrest⟩]
    rfl
  · refine Or.inr (Or.inl fun same hsame => ?_)
    rw [← hsame] at hother
    rw [tidied, run_flags_of_other hother]
    rfl

/-- The repair of one field does not get in the way of that of another. -/
theorem tidied_comm (field other : String) (record : Record) :
    (tidied field record).bind (tidied other) = (tidied other record).bind (tidied field) := by
  by_cases hne : field = other
  · rw [hne]
  have hother : ∀ value, Fields.get? (Fields.insert record field value) other =
      Fields.get? record other := fun value => Fields.get?_insert_of_ne record value (Ne.symm hne)
  have hfield : ∀ value, Fields.get? (Fields.insert record other value) field =
      Fields.get? record field := fun value => Fields.get?_insert_of_ne record value hne
  -- whatever is done under one name, the other value is still the same, so each does what it did
  rcases tidied_cases field record with h | h | ⟨value, hmem, h⟩ <;>
    rcases tidied_cases other record with h' | h' | ⟨value', -, h'⟩
  all_goals rw [h record rfl, h' record rfl]
  all_goals simp only [Option.bind_none, Option.bind_some, h record rfl, h' record rfl,
    h _ (hfield _), h' _ (hother _)]
  rw [Fields.insert_comm hne hmem]

/-- A repaired record needs no second repair. -/
theorem tidied_idempotent {field : String} {record after : Record}
    (h : tidied field record = some after) : tidied field after = some after := by
  rcases flags_cases field record with ⟨flags, hflags⟩ | ⟨flags, other, hstray⟩ | hother
  · rw [tidied, run_flags_of_strings hflags] at h
    obtain rfl := Option.some.inj h
    have hset := Fields.get?_insert_self record field (.obj (setOf flags))
    rw [tidied, run_flags_of_other fun entries hentries => ?_]
    · rfl
    · rw [hset] at hentries
      cases hentries
  · rw [tidied, run_flags_of_stray hstray] at h
    cases h
  · have hsame := run_flags_of_other hother
    rw [tidied, hsame] at h
    obtain rfl := Option.some.inj h
    rw [tidied, hsame]
    rfl

/-- Repairs of several fields are steps that are taken one after the other. -/
theorem toOption_runAll (fields : List String) (record : Record) :
    (runAll (fields.map Repair.flags) record).toOption = runSteps tidied fields (some record) := by
  induction fields generalizing record with
  | nil => rfl
  | cons field rest ih =>
    rw [List.map_cons, runAll, runSteps_cons, Option.bind_some, tidied]
    cases (Repair.flags field).run record with
    | ok repaired => exact ih repaired
    | error fault => exact (runSteps_none rest).symm

theorem runAll_eq_ok_iff {fields : List String} {record after : Record} :
    runAll (fields.map Repair.flags) record = .ok after ↔
      runSteps tidied fields (some record) = some after := by
  rw [← toOption_runAll]
  cases runAll (fields.map Repair.flags) record <;> simp [Except.toOption]

/-- A repair of flags fails exactly if an entry under its field is no string, names the first such
entry and leaves the record as it was. If it succeeds, it changes the flags into a set and nothing
else. Several such repairs change nothing when they are made again, and it makes no difference in
which order they are made and how often. -/
theorem flags_laws :
    (∀ field record fault, (Repair.flags field).run record = .error fault ↔
      ∃ flags other, HoldsStray record field flags other ∧
        fault = strayEntry field flags.length other) ∧
    (∀ field record fault, (Repair.flags field).run record = .error fault →
      (flagsInPlace field).run.run record = (.error fault, record)) ∧
    (∀ field record after, (Repair.flags field).run record = .ok after →
      (flagsInPlace field).run.run record = (.ok (), after) ∧ Flagged field record after) ∧
    (∀ (fields : List String) record after,
      runAll (fields.map Repair.flags) record = .ok after →
        runAll (fields.map Repair.flags) after = .ok after) ∧
    (∀ fields others : List String, (∀ field, field ∈ fields ↔ field ∈ others) →
      ∀ record after, runAll (fields.map Repair.flags) record = .ok after ↔
        runAll (others.map Repair.flags) record = .ok after) := by
  have hsame : ∀ fields others : List String, (∀ field, field ∈ fields ↔ field ∈ others) →
      ∀ start, runSteps tidied fields start = runSteps tidied others start :=
    fun fields others h => runSteps_eq_of_mem_iff tidied_comm (fun _ _ _ => tidied_idempotent) h
  refine ⟨fun field record fault => run_flags_eq_error_iff, fun field record fault h => ?_,
    fun field record after h => ⟨?_, flagged_of_run_eq_ok h⟩, fun fields record after h => ?_,
    fun fields others h record after => ?_⟩
  · rw [flagsInPlace_run, h]
  · rw [flagsInPlace_run, h]
  · rw [runAll_eq_ok_iff] at h ⊢
    -- the repairs made twice are repairs of the same fields
    have htwice := hsame fields (fields ++ fields) (by simp) (some record)
    rw [runSteps_append, h] at htwice
    exact htwice.symm
  · rw [runAll_eq_ok_iff, runAll_eq_ok_iff, hsame fields others h]

/-- Flags that are repeated, flags that are a set already, and an entry that is no flag. -/
theorem flags_laws_call :
    let call : Record := [("flags", .arr [.str "async", .str "export", .str "async"]),
      ("kind", .str "call"), ("marks", .obj [("pure", .bool true)])]
    let fixed : Record := [("flags", .obj [("async", .bool true), ("export", .bool true)]),
      ("kind", .str "call"), ("marks", .obj [("pure", .bool true)])]
    let stray : Record := [("flags", .arr [.str "async", Json.ofNat 7, .null])]
    Flagged "flags" call fixed ∧
    (flagsInPlace "flags").run.run stray =
      (.error ⟨"flags", "entry 1 is not a string: 7"⟩, stray) ∧
    runAll (["flags", "marks"].map Repair.flags) fixed = .ok fixed ∧
    runAll (["marks", "flags", "marks"].map Repair.flags) call = .ok fixed := by
  intro call fixed stray
  obtain ⟨-, hkept, hflagged, hagain, hsame⟩ := flags_laws
  have hstray : (Repair.flags "flags").run stray =
      .error ⟨"flags", "entry 1 is not a string: 7"⟩ := by cbv
  have hcall : runAll (["flags", "marks"].map Repair.flags) call = .ok fixed := rfl
  refine ⟨(hflagged "flags" call fixed rfl).2, hkept _ _ _ hstray, hagain _ _ _ hcall, ?_⟩
  exact (hsame ["flags", "marks"] ["marks", "flags", "marks"] (by simp) call fixed).mp hcall

end Repair

end CanonicalTree
