import CanonicalTree.Proofs.Sameness
import CanonicalTree.Rule.Build

/-!
# Edits

What single edits do to the fields of a node. An edit that has nothing to work on changes nothing.
The only edit that can fail by itself is a renaming, and it fails exactly if both keys are in use
and differ (`renameEntry_of_contend`, `renameEntry_of_not_contend`). To rename in place is to take
the entry out and to put it back where it stood (`renameEntry_eq_putAt`). Edits look at names only,
so it does not matter whether values are changed before an edit or after it (`mapValues`).
-/

namespace CanonicalTree

namespace Fields

variable {α : Type} {fields : Fields α}

theorem erase_of_notMem {key : String} (h : key ∉ keys fields) : erase fields key = fields := by
  refine List.filter_eq_self.mpr fun entry hentry => ?_
  have hne : entry.1 ≠ key := fun heq => h (heq ▸ mem_keys_of_mem hentry)
  simpa using hne

theorem get?_erase_self (fields : Fields α) (key : String) :
    get? (erase fields key) key = none := by
  rw [get?_eq_none_iff, keys_erase]
  simp

theorem get?_erase_of_ne (fields : Fields α) {key other : String} (h : other ≠ key) :
    get? (erase fields key) other = get? fields other := by
  induction fields with
  | nil => rfl
  | cons entry rest ih =>
    unfold erase at ih ⊢
    by_cases hentry : entry.1 = key
    · have hne : entry.1 ≠ other := fun heq => h (heq.symm.trans hentry)
      rw [List.filter_cons_of_neg (by simpa using hentry), ih, get?, if_neg hne]
    · rw [List.filter_cons_of_pos (by simpa using hentry), get?, get?, ih]

theorem rename_of_notMem {old : String} (new : String) (h : old ∉ keys fields) :
    rename fields old new = fields := by
  refine (List.map_congr_left fun entry hentry => ?_).trans fields.map_id
  have hne : entry.1 ≠ old := fun heq => h (heq ▸ mem_keys_of_mem hentry)
  rw [if_neg hne, id]

theorem rename_self (fields : Fields α) (key : String) : rename fields key key = fields := by
  refine (List.map_congr_left fun entry _ => ?_).trans fields.map_id
  split
  · next heq => rw [← heq, id]
  · rfl

/-- A renaming does not change whether a third name is in use. -/
theorem mem_keys_rename_of_ne {name old new : String} (hold : name ≠ old) (hnew : name ≠ new) :
    name ∈ keys (rename fields old new) ↔ name ∈ keys fields := by
  rw [keys_rename, List.mem_map]
  constructor
  · rintro ⟨other, hother, heq⟩
    split at heq
    · exact absurd heq.symm hnew
    · exact heq ▸ hother
  · intro hname
    exact ⟨name, hname, if_neg hold⟩

/-- Among distinct names a renaming in place takes the entry out and puts it back where it stood,
under the new name. -/
theorem rename_eq_putAt {old new : String} (h : Distinct fields) (hnew : new ∉ keys fields) :
    rename fields old new =
      match takeOut? fields old with
      | some (place, value, others) => putAt others place new value
      | none => fields := by
  induction fields with
  | nil => rfl
  | cons entry rest ih =>
    obtain ⟨name, value⟩ := entry
    rw [keys_cons, List.mem_cons, not_or] at hnew
    obtain ⟨hfresh, hdistinct⟩ := List.nodup_cons.mp h
    have hrest := ih hdistinct hnew.2
    by_cases hname : name = old
    · subst hname
      have hsame : rename rest name new = rest := rename_of_notMem new hfresh
      unfold rename at hsame ⊢
      rw [List.map_cons, if_pos rfl, hsame, takeOut?, if_pos rfl]
      show _ = putAt rest 0 new value
      rw [putAt, erase_of_notMem hnew.2, List.insertIdx_zero]
    · have hstep : rename ((name, value) :: rest) old new =
          (name, value) :: rename rest old new := by
        unfold rename
        rw [List.map_cons, if_neg hname]
      rw [hstep, hrest, takeOut?, if_neg hname]
      cases takeOut? rest old with
      | none => rfl
      | some taken =>
        obtain ⟨place, found, others⟩ := taken
        have hkeep : erase ((name, value) :: others) new = (name, value) :: erase others new :=
          List.filter_cons_of_pos (by simpa using Ne.symm hnew.1)
        simp only [putAt, hkeep, List.insertIdx_succ_cons]

theorem contains_iff {key : String} : contains fields key = true ↔ key ∈ keys fields :=
  get?_isSome_iff fields key

/-- An entry with a new name goes to the end. -/
theorem insert_of_notMem {key : String} (value : α) (h : key ∉ keys fields) :
    insert fields key value = fields ++ [(key, value)] := by
  induction fields with
  | nil => rfl
  | cons entry rest ih =>
    rw [keys_cons, List.mem_cons, not_or] at h
    rw [insert, if_neg (Ne.symm h.1), ih h.2, List.cons_append]

/-- Storing what is stored already changes nothing. -/
theorem insert_of_get? {key : String} {value : α} (h : get? fields key = some value) :
    insert fields key value = fields := by
  induction fields with
  | nil => cases h
  | cons entry rest ih =>
    obtain ⟨name, old⟩ := entry
    rw [get?] at h
    rw [insert]
    by_cases hname : name = key
    · rw [if_pos hname] at h
      rw [if_pos hname, Option.some.inj h]
    · rw [if_neg hname] at h
      rw [if_neg hname, ih h]

/-- Entries under two names can be stored in either order, unless both names are new. -/
theorem insert_comm {key other : String} (hne : key ≠ other) (h : key ∈ keys fields)
    (value value' : α) :
    insert (insert fields key value) other value' =
      insert (insert fields other value') key value := by
  induction fields with
  | nil => cases h
  | cons entry rest ih =>
    obtain ⟨name, old⟩ := entry
    by_cases hkey : name = key
    · have hother : name ≠ other := hkey ▸ hne
      simp [insert, hkey, hne]
    · have hrest : key ∈ keys rest := (List.mem_cons.mp h).resolve_left (Ne.symm hkey)
      by_cases hother : name = other
      · simp [insert, hother, hne.symm]
      · simp [insert, hkey, hother, ih hrest]

/-! ## Changing all values -/

section Values

variable {β : Type} {g : α → β}

/-- The fields with `g` applied to every value. -/
def mapValues (g : α → β) (fields : Fields α) : Fields β :=
  fields.map fun entry => (entry.1, g entry.2)

/-- Changing all values changes what is found. -/
theorem get?_mapValues (key : String) :
    get? (mapValues g fields) key = (get? fields key).map g := by
  induction fields with
  | nil => rfl
  | cons entry rest ih =>
    show (if entry.1 = key then some (g entry.2) else get? (mapValues g rest) key) = _
    rw [get?, ih]
    split <;> rfl

theorem contains_mapValues (key : String) :
    contains (mapValues g fields) key = contains fields key := by
  unfold contains
  rw [get?_mapValues, Option.isSome_map]

theorem insert_mapValues (key : String) (value : α) :
    insert (mapValues g fields) key (g value) = mapValues g (insert fields key value) := by
  induction fields with
  | nil => rfl
  | cons entry rest ih =>
    show (if entry.1 = key then (entry.1, g value) :: mapValues g rest
      else (entry.1, g entry.2) :: insert (mapValues g rest) key (g value)) = _
    rw [insert, ih]
    split <;> rfl

theorem erase_mapValues (key : String) :
    erase (mapValues g fields) key = mapValues g (erase fields key) := by
  unfold erase mapValues
  rw [List.filter_map]
  rfl

theorem rename_mapValues (old new : String) :
    rename (mapValues g fields) old new = mapValues g (rename fields old new) := by
  unfold rename mapValues
  rw [List.map_map, List.map_map]
  refine List.map_congr_left fun entry _ => ?_
  simp only [Function.comp_apply]
  split <;> rfl

end Values

end Fields

/-- Both keys are in use, so that the entry of the first cannot be given the second. -/
def Fields.Contend {α : Type} (fields : Fields α) (old new : String) : Prop :=
  old ∈ keys fields ∧ new ∈ keys fields

instance {α : Type} (fields : Fields α) (old new : String) : Decidable (fields.Contend old new) :=
  inferInstanceAs (Decidable (_ ∧ _))

namespace BuildContext

variable {context : BuildContext} {slots : Fields Slot} {old new : String}

/-- If both keys are in use and differ, the renaming is refused. -/
theorem renameEntry_of_contend {α : Type} {fields : Fields α} (hne : old ≠ new)
    (h : fields.Contend old new) : renameEntry fields old new = .error (.collision old new) := by
  have hold := Fields.contains_iff.mpr h.1
  have hnew := Fields.contains_iff.mpr h.2
  rw [renameEntry, if_pos ⟨hne, hold⟩, if_pos hnew]

/-- Unless the keys contend, a renaming succeeds, also if there is nothing to rename. -/
theorem renameEntry_of_not_contend {α : Type} {fields : Fields α}
    (h : ¬ fields.Contend old new) :
    renameEntry fields old new = .ok (Fields.rename fields old new) := by
  unfold renameEntry
  split
  · next hold =>
    have hnew : ¬ Fields.contains fields new = true := fun hnew =>
      h ⟨Fields.contains_iff.mp hold.2, Fields.contains_iff.mp hnew⟩
    rw [if_neg hnew]
  · next hold =>
    rcases not_and_or.mp hold with heq | hmissing
    · rw [not_not.mp heq, Fields.rename_self]
    · rw [Fields.rename_of_notMem new fun hmem => hmissing (Fields.contains_iff.mpr hmem)]

/-- Among distinct names a renaming is carried out in two steps, once the keys have been checked:
the entry is taken out, and what it held is put back at the same place. -/
theorem renameEntry_eq_putAt {α : Type} {fields : Fields α} (h : Fields.Distinct fields)
    (old new : String) :
    renameEntry fields old new =
      if old ≠ new ∧ Fields.contains fields old then
        if Fields.contains fields new then .error (.collision old new)
        else
          match Fields.takeOut? fields old with
          | some (place, value, others) => .ok (Fields.putAt others place new value)
          | none => .ok fields
      else .ok fields := by
  unfold renameEntry
  split
  · split
    · rfl
    · next hnew =>
      rw [Fields.rename_eq_putAt h fun hmem => hnew (Fields.contains_iff.mpr hmem)]
      cases Fields.takeOut? fields old <;> rfl
  · rfl

/-- A renaming is refused, has nothing to do, or gives one entry a name that is free. -/
theorem renameEntry_cases {α : Type} (fields : Fields α) (old new : String) :
    (old ≠ new ∧ fields.Contend old new ∧
        renameEntry fields old new = .error (.collision old new)) ∨
      ((old = new ∨ old ∉ Fields.keys fields) ∧ renameEntry fields old new = .ok fields) ∨
      (old ∈ Fields.keys fields ∧ new ∉ Fields.keys fields ∧
        renameEntry fields old new = .ok (Fields.rename fields old new)) := by
  by_cases hcontend : fields.Contend old new
  · by_cases heq : old = new
    · refine .inr (.inl ⟨.inl heq, ?_⟩)
      rw [renameEntry, if_neg fun h => h.1 heq]
    · exact .inl ⟨heq, hcontend, renameEntry_of_contend heq hcontend⟩
  · have hdone := renameEntry_of_not_contend hcontend
    by_cases hold : old ∈ Fields.keys fields
    · exact .inr (.inr ⟨hold, fun hnew => hcontend ⟨hold, hnew⟩, hdone⟩)
    · rw [Fields.rename_of_notMem new hold] at hdone
      exact .inr (.inl ⟨.inr hold, hdone⟩)

/-- A renaming looks at keys only, also when it is refused. -/
theorem renameEntry_mapValues {α β : Type} {g : α → β} (fields : Fields α) (old new : String) :
    renameEntry (Fields.mapValues g fields) old new =
      (renameEntry fields old new).map (Fields.mapValues g) := by
  unfold renameEntry
  rw [Fields.contains_mapValues, Fields.contains_mapValues, Fields.rename_mapValues]
  split
  · split <;> rfl
  · rfl

/-- Edits that begin with a renaming whose keys contend are refused. -/
theorem editSlots_rename_of_contend (edits : List (Edit SlotSource)) (hne : old ≠ new)
    (h : slots.Contend old new) :
    context.editSlots slots (.rename old new :: edits) = .error (.collision old new) := by
  rw [editSlots, renameEntry_of_contend hne h]
  rfl

/-- Edits that begin with any other renaming go on with the renamed slots. -/
theorem editSlots_rename_of_not_contend (edits : List (Edit SlotSource))
    (h : ¬ slots.Contend old new) :
    context.editSlots slots (.rename old new :: edits) =
      context.editSlots (Fields.rename slots old new) edits := by
  rw [editSlots, renameEntry_of_not_contend h]
  rfl

theorem kindAfter_none {kind : String} (h : kind ≠ "") :
    context.kindAfter kind none = .ok kind := by
  simp [kindAfter, h, bind, Except.bind, pure, Except.pure]

theorem kindAfter_literal {text : String} (kind : String) (h : text ≠ "") :
    context.kindAfter kind (some (.literal text)) = .ok text := by
  simp [kindAfter, BuildContext.text, h, bind, Except.bind, pure, Except.pure]

end BuildContext

end CanonicalTree
