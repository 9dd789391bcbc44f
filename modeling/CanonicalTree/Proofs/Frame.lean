import CanonicalTree.Proofs.Edits
import CanonicalTree.Proofs.Outcomes
import CanonicalTree.Rule.Phase
import Mathlib.Data.List.Nodup

/-!
# What edits leave alone

The edits of a blueprint work one after the other on one list of fields, so that an edit may undo,
overwrite or follow up what an earlier one did. Whatever they do to each other, they do it under the
names that they mention: the entries under all other names stay as they are and in their order.
`outside names` is what is left of the fields without those entries, one edit keeps it
(`Edit.outside_run`), and so do all of them together (`outside_editAll`).

Properties and slots are edited alike. They differ in what a `set` stores, and only for slots may
that be nothing; `Edit.run` has this content as a parameter, and both kinds of edits are instances
(`propertiesAfter_eq`, `slotsAfter_eq`).
-/

namespace CanonicalTree

/-! ## Fields without some names -/

namespace Fields

variable {α : Type} {fields : Fields α} {names : List String} {key : String}

/-- The entries whose names are not among these. -/
def outside (names : List String) (fields : Fields α) : Fields α :=
  fields.filter fun entry => entry.1 ∉ names

theorem keys_outside (names : List String) (fields : Fields α) :
    keys (outside names fields) = (keys fields).filter (· ∉ names) := by
  simp [outside, keys, List.filter_map, Function.comp_def]

theorem get?_outside (fields : Fields α) (h : key ∉ names) :
    get? (outside names fields) key = get? fields key := by
  induction fields with
  | nil => rfl
  | cons entry rest ih =>
    unfold outside at ih ⊢
    by_cases hentry : entry.1 ∈ names
    · have hne : entry.1 ≠ key := fun heq => h (heq ▸ hentry)
      rw [List.filter_cons_of_neg (by simpa using hentry), ih, get?, if_neg hne]
    · rw [List.filter_cons_of_pos (by simpa using hentry), get?, get?, ih]

/-- Storing under one of the names changes nothing outside them. -/
theorem outside_insert (fields : Fields α) (value : α) (h : key ∈ names) :
    outside names (insert fields key value) = outside names fields := by
  induction fields with
  | nil => simp [insert, outside, h]
  | cons entry rest ih =>
    obtain ⟨name, old⟩ := entry
    unfold outside at ih ⊢
    rw [insert]
    by_cases hname : name = key
    · simp [hname, h]
    · rw [if_neg hname, List.filter_cons, List.filter_cons, ih]

theorem outside_erase (fields : Fields α) (h : key ∈ names) :
    outside names (erase fields key) = outside names fields := by
  unfold outside erase
  rw [List.filter_filter]
  refine List.filter_congr fun entry _ => ?_
  by_cases hentry : entry.1 = key
  · simp [hentry, h]
  · simp [hentry]

/-- Renaming one of the names to another of them changes nothing outside them. -/
theorem outside_rename (fields : Fields α) {old new : String} (hold : old ∈ names)
    (hnew : new ∈ names) : outside names (rename fields old new) = outside names fields := by
  induction fields with
  | nil => rfl
  | cons entry rest ih =>
    unfold outside rename at ih ⊢
    rw [List.map_cons]
    by_cases hentry : entry.1 = old
    · rw [if_pos hentry, List.filter_cons_of_neg (by simpa using hnew),
        List.filter_cons_of_neg (by simpa [hentry] using hold), ih]
    · rw [if_neg hentry, List.filter_cons, List.filter_cons, ih]

/-- Outside the names the fields hold the same values, in the same order. -/
structure Framed (names : List String) (start final : Fields α) : Prop where
  values : ∀ key ∉ names, get? final key = get? start key
  order : (keys final).filter (· ∉ names) = (keys start).filter (· ∉ names)

theorem framed_of_outside_eq {start final : Fields α}
    (h : outside names final = outside names start) : Framed names start final where
  values key hkey := by rw [← get?_outside final hkey, h, get?_outside start hkey]
  order := by rw [← keys_outside, h, keys_outside]

/-! ## Names that stay distinct -/

theorem distinct_insert (h : Distinct fields) (key : String) (value : α) :
    Distinct (insert fields key value) := by
  unfold Distinct at h ⊢
  rw [keys_insert]
  split
  · exact h
  · next hfresh =>
    refine List.nodup_append.mpr ⟨h, List.nodup_singleton key, ?_⟩
    intro name hname other hother heq
    rw [List.mem_singleton.mp hother] at heq
    exact hfresh (heq ▸ hname)

theorem distinct_erase (h : Distinct fields) (key : String) : Distinct (erase fields key) := by
  unfold Distinct at h ⊢
  rw [keys_erase]
  exact h.filter _

/-- A used name has an entry, with entries before it and behind it. -/
theorem exists_split_of_mem_keys (h : key ∈ keys fields) :
    ∃ front value back, fields = front ++ (key, value) :: back := by
  obtain ⟨⟨_, value⟩, hentry, rfl⟩ := List.mem_map.mp h
  obtain ⟨front, back, hsplit⟩ := List.append_of_mem hentry
  exact ⟨front, value, back, hsplit⟩

/-- Names are distinct if those around an entry are and its own is not among them. -/
theorem distinct_middle {front back : Fields α} {value : α} :
    Distinct (front ++ (key, value) :: back) ↔
      key ∉ keys (front ++ back) ∧ Distinct (front ++ back) := by
  unfold Distinct keys
  rw [List.map_append, List.map_cons, List.nodup_middle, List.nodup_cons, List.map_append]

/-- The new name takes the place of the old one. -/
theorem Distinct.rename_eq {front back : Fields α} {old : String} {value : α}
    (h : Distinct (front ++ (old, value) :: back)) (new : String) :
    rename (front ++ (old, value) :: back) old new = front ++ (new, value) :: back := by
  have hold := (distinct_middle.mp h).1
  rw [keys, List.map_append, List.mem_append, not_or] at hold
  have hfront : rename front old new = front := rename_of_notMem new hold.1
  have hback : rename back old new = back := rename_of_notMem new hold.2
  unfold rename at hfront hback ⊢
  rw [List.map_append, List.map_cons, hfront, hback, if_pos rfl]

/-- Renaming to an unused name keeps names distinct. -/
theorem distinct_rename {old new : String} (h : Distinct fields) (hnew : new ∉ keys fields) :
    Distinct (rename fields old new) := by
  by_cases hold : old ∈ keys fields
  · obtain ⟨front, value, back, rfl⟩ := exists_split_of_mem_keys hold
    rw [h.rename_eq new]
    refine distinct_middle.mpr ⟨fun hmem => hnew ?_, (distinct_middle.mp h).2⟩
    rw [keys, List.map_append, List.mem_append] at hmem ⊢
    exact hmem.imp_right (List.mem_cons_of_mem old)
  · rwa [rename_of_notMem new hold]

end Fields

/-! ## One edit and many -/

namespace Edit

variable {α σ : Type} {content : σ → Except BuildFault (Option α)} {fields next : Fields α}

/-- The names that the edit mentions. -/
def names : Edit σ → List String
  | .set key _ => [key]
  | .remove key => [key]
  | .rename old new => [old, new]

/-- Carry out the edit, where `content` says what a source gives, if it gives anything. -/
def run (content : σ → Except BuildFault (Option α)) (fields : Fields α) :
    Edit σ → Except BuildFault (Fields α)
  | .set key source => do
    let value ← content source
    match value with
    | some value => pure (Fields.insert fields key value)
    | none => pure fields
  | .remove key => .ok (Fields.erase fields key)
  | .rename old new => BuildContext.renameEntry fields old new

/-- What a successful edit makes of the fields. -/
theorem run_cases {edit : Edit σ} (h : edit.run content fields = .ok next) :
    next = fields ∨
      (∃ key source value, edit = .set key source ∧ next = Fields.insert fields key value) ∨
      (∃ key, edit = .remove key ∧ next = Fields.erase fields key) ∨
      ∃ old new, edit = .rename old new ∧ new ∉ Fields.keys fields ∧
        next = Fields.rename fields old new := by
  cases edit with
  | set key source =>
    obtain ⟨value, -, h⟩ := bind_eq_ok_iff.mp h
    cases value with
    | none => exact .inl (pure_eq_ok_iff.mp h).symm
    | some value => exact .inr (.inl ⟨key, source, value, rfl, (pure_eq_ok_iff.mp h).symm⟩)
  | remove key =>
    cases h
    exact .inr (.inr (.inl ⟨key, rfl, rfl⟩))
  | rename old new =>
    rw [run] at h
    rcases BuildContext.renameEntry_cases fields old new with
      ⟨-, -, hfails⟩ | ⟨-, hidle⟩ | ⟨-, hnew, hdone⟩
    · rw [hfails] at h
      cases h
    · rw [hidle] at h
      exact .inl (Except.ok.inj h).symm
    · rw [hdone] at h
      exact .inr (.inr (.inr ⟨old, new, rfl, hnew, (Except.ok.inj h).symm⟩))

/-- An edit changes nothing outside the names it mentions. -/
theorem outside_run {edit : Edit σ} {names : List String} (hnames : edit.names ⊆ names)
    (h : edit.run content fields = .ok next) :
    Fields.outside names next = Fields.outside names fields := by
  rcases run_cases h with rfl | ⟨key, source, value, rfl, rfl⟩ | ⟨key, rfl, rfl⟩ |
    ⟨old, new, rfl, -, rfl⟩
  · rfl
  · exact Fields.outside_insert fields value (hnames (by simp [Edit.names]))
  · exact Fields.outside_erase fields (hnames (by simp [Edit.names]))
  · exact Fields.outside_rename fields (hnames (by simp [Edit.names]))
      (hnames (by simp [Edit.names]))

/-- A successful edit keeps names distinct. -/
theorem distinct_run {edit : Edit σ} (hdistinct : Fields.Distinct fields)
    (h : edit.run content fields = .ok next) : Fields.Distinct next := by
  rcases run_cases h with rfl | ⟨key, source, value, rfl, rfl⟩ | ⟨key, rfl, rfl⟩ |
    ⟨old, new, rfl, hnew, rfl⟩
  · exact hdistinct
  · exact Fields.distinct_insert hdistinct key value
  · exact Fields.distinct_erase hdistinct key
  · exact Fields.distinct_rename hdistinct hnew

end Edit

section Many

variable {α σ : Type} {content : σ → Except BuildFault (Option α)} {start final : Fields α}

/-- All names that the edits mention. -/
def editedNames (edits : List (Edit σ)) : List String :=
  edits.flatMap Edit.names

/-- Carry out the edits, one after the other. -/
def editAll (content : σ → Except BuildFault (Option α)) (start : Fields α)
    (edits : List (Edit σ)) : Except BuildFault (Fields α) :=
  edits.foldlM (Edit.run content) start

theorem editAll_append (before after : List (Edit σ)) :
    editAll content start (before ++ after) =
      editAll content start before >>= fun reached => editAll content reached after :=
  List.foldlM_append

/-- Edits that fail fail whatever comes after them. -/
theorem editAll_append_ne_ok {before : List (Edit σ)} {fault : BuildFault}
    (h : editAll content start before = .error fault) (after : List (Edit σ)) :
    editAll content start (before ++ after) ≠ .ok final := by
  rw [editAll_append, h]
  intro hok
  cases hok

theorem editAll_singleton (edit : Edit σ) :
    editAll content start [edit] = edit.run content start := by
  unfold editAll
  rw [List.foldlM_cons]
  cases edit.run content start <;> rfl

/-- Successful edits change nothing outside the names they mention. -/
theorem outside_editAll {edits : List (Edit σ)} {names : List String}
    (hnames : editedNames edits ⊆ names) (h : editAll content start edits = .ok final) :
    Fields.outside names final = Fields.outside names start := by
  induction edits generalizing start with
  | nil =>
    cases h
    rfl
  | cons edit rest ih =>
    rw [editedNames, List.flatMap_cons, List.append_subset] at hnames
    obtain ⟨next, hnext, hrest⟩ := bind_eq_ok_iff.mp h
    exact (ih hnames.2 hrest).trans (Edit.outside_run hnames.1 hnext)

theorem distinct_editAll {edits : List (Edit σ)} (hdistinct : Fields.Distinct start)
    (h : editAll content start edits = .ok final) : Fields.Distinct final :=
  foldlM_ok_invariant Fields.Distinct (fun _ _ _ => Edit.distinct_run) hdistinct h

/-- Successful edits leave values and order outside their names as they were. -/
theorem framed_editAll {edits : List (Edit σ)} (h : editAll content start edits = .ok final) :
    Fields.Framed (editedNames edits) start final :=
  Fields.framed_of_outside_eq (outside_editAll (List.Subset.refl _) h)

/-- How a sequence of edits goes, where `reached` gives the fields after the first of them: names
are distinct at every point, and a renaming fails exactly if it would make them coincide. -/
structure Orderly (reached : List (Edit σ) → Except BuildFault (Fields α))
    (edits : List (Edit σ)) : Prop where
  distinct : ∀ before after fields, edits = before ++ after → reached before = .ok fields →
    Fields.Distinct fields
  collides : ∀ before old new after fields, edits = before ++ .rename old new :: after →
    reached before = .ok fields →
      ((∃ fault, reached (before ++ [.rename old new]) = .error fault) ↔
        old ≠ new ∧ old ∈ Fields.keys fields ∧ new ∈ Fields.keys fields)
  idle : ∀ before old new after fields, edits = before ++ .rename old new :: after →
    reached before = .ok fields → old = new ∨ old ∉ Fields.keys fields →
      reached (before ++ [.rename old new]) = .ok fields
  renames : ∀ before old new after front value back,
    edits = before ++ .rename old new :: after →
    reached before = .ok (front ++ (old, value) :: back) →
    new ∉ Fields.keys (front ++ (old, value) :: back) →
      reached (before ++ [.rename old new]) = .ok (front ++ (new, value) :: back)

/-- After other edits a renaming is carried out on what they have made. -/
theorem editAll_rename {before : List (Edit σ)} {fields : Fields α} (old new : String)
    (h : editAll content start before = .ok fields) :
    editAll content start (before ++ [.rename old new]) =
      BuildContext.renameEntry fields old new := by
  rw [editAll_append, h]
  exact editAll_singleton _

/-- Edits collide, are idle and rename as they say, wherever they stand in the row. -/
theorem orderly_editAll (hdistinct : Fields.Distinct start) (edits : List (Edit σ)) :
    Orderly (editAll content start) edits where
  distinct before _ fields _ hbefore := distinct_editAll hdistinct hbefore
  collides before old new _ fields _ hbefore := by
    rw [editAll_rename old new hbefore]
    rcases BuildContext.renameEntry_cases fields old new with
      ⟨hne, hcontend, hfails⟩ | ⟨hidle, hdone⟩ | ⟨-, hnew, hdone⟩
    · exact iff_of_true ⟨_, hfails⟩ ⟨hne, hcontend⟩
    · rw [hdone]
      refine iff_of_false (by simp) ?_
      rintro ⟨hne, hold, -⟩
      exact hidle.elim hne fun hmissing => hmissing hold
    · rw [hdone]
      exact iff_of_false (by simp) fun h => hnew h.2.2
  idle before old new _ fields _ hbefore hidle := by
    rw [editAll_rename old new hbefore]
    rcases BuildContext.renameEntry_cases fields old new with
      ⟨hne, hcontend, -⟩ | ⟨-, hdone⟩ | ⟨hold, hnew, -⟩
    · exact (hidle.elim hne fun hmissing => hmissing hcontend.1).elim
    · exact hdone
    · exact (hidle.elim (fun heq => hnew (heq ▸ hold)) fun hmissing => hmissing hold).elim
  renames before old new _ front value back _ hbefore hnew := by
    have hreached := distinct_editAll hdistinct hbefore
    rw [editAll_rename old new hbefore,
      BuildContext.renameEntry_of_not_contend fun hcontend => hnew hcontend.2,
      hreached.rename_eq new]

end Many

/-! ## The edits of a blueprint -/

namespace BuildContext

variable {context : BuildContext}

/-- An edit of the properties is an edit whose sources always give a scalar. -/
theorem editProperty_eq (properties : Fields Scalar) (edit : Edit ScalarSource) :
    context.editProperty properties edit =
      edit.run (fun source => some <$> context.scalar source) properties := by
  cases edit with
  | set key source =>
    rw [editProperty, Edit.run]
    cases context.scalar source <;> rfl
  | remove key => rfl
  | rename old new => rfl

/-- Edits of the slots are edits whose sources may give nothing. -/
theorem editSlots_eq (slots : Fields Slot) (edits : List (Edit SlotSource)) :
    context.editSlots slots edits = editAll context.slot slots edits := by
  induction edits generalizing slots with
  | nil =>
    rw [editSlots]
    rfl
  | cons edit rest ih =>
    rw [editAll, List.foldlM_cons]
    cases edit with
    | set name source =>
      rw [editSlots, Edit.run, bind_assoc]
      refine bind_congr fun content => ?_
      cases content with
      | none => exact ih slots
      | some content => exact ih (Fields.insert slots name content)
    | remove name =>
      rw [editSlots]
      exact ih (Fields.erase slots name)
    | rename old new =>
      rw [editSlots]
      exact bind_congr fun renamed => ih renamed

theorem kindAfter_none_eq {kind result : String} (h : context.kindAfter kind none = .ok result) :
    result = kind := by
  by_cases hempty : kind = ""
  · rw [hempty] at h
    cases h
  · rw [kindAfter_none hempty] at h
    exact (Except.ok.inj h).symm

/-- A blueprint is carried out exactly if all parts of the node are made. -/
theorem build_eq_ok_iff {base result : Node} {own : Option Span} {blueprint : Blueprint} :
    context.build base own blueprint = .ok result ↔
      context.kindAfter base.kind blueprint.kind = .ok result.kind ∧
      context.tokenAfter base.token blueprint.token = .ok result.token ∧
      context.positionAfter own blueprint.position = .ok result.position ∧
      blueprint.properties.foldlM context.editProperty base.properties = .ok result.properties ∧
      context.editSlots base.slots blueprint.slots = .ok result.slots := by
  obtain ⟨kind, token, position, properties, slots⟩ := blueprint
  rw [build]
  simp only [bind_eq_ok_iff, pure_eq_ok_iff]
  constructor
  · rintro ⟨newKind, hkind, newToken, htoken, newPosition, hposition, newProperties, hproperties,
      newSlots, hslots, rfl⟩
    exact ⟨hkind, htoken, hposition, hproperties, hslots⟩
  · rintro ⟨hkind, htoken, hposition, hproperties, hslots⟩
    obtain ⟨newKind, newToken, newPosition, newProperties, newSlots⟩ := result
    exact ⟨_, hkind, _, htoken, _, hposition, _, hproperties, _, hslots, rfl⟩

end BuildContext

namespace Action

variable {node result : Node} {captures : Captures} {blueprint : Blueprint}

/-- The properties of the matched node after these edits. -/
def propertiesAfter (node : Node) (captures : Captures) (edits : List (Edit ScalarSource)) :
    Except BuildFault (Fields Scalar) :=
  edits.foldlM (BuildContext.ofMatch node captures).editProperty node.properties

/-- The slots of the matched node after these edits. -/
def slotsAfter (node : Node) (captures : Captures) (edits : List (Edit SlotSource)) :
    Except BuildFault (Fields Slot) :=
  (BuildContext.ofMatch node captures).editSlots node.slots edits

theorem propertiesAfter_eq (node : Node) (captures : Captures) :
    propertiesAfter node captures = editAll
      (fun source => some <$> (BuildContext.ofMatch node captures).scalar source)
      node.properties := by
  funext edits
  unfold propertiesAfter editAll
  congr 1
  funext properties edit
  exact BuildContext.editProperty_eq properties edit

theorem slotsAfter_eq (node : Node) (captures : Captures) :
    slotsAfter node captures = editAll (BuildContext.ofMatch node captures).slot node.slots := by
  funext edits
  exact BuildContext.editSlots_eq node.slots edits

/-- Editing a node succeeds exactly if all five parts of the result can be made. -/
theorem edit_eq_ok_iff : (Action.edit blueprint).run node captures = .ok result ↔
    (BuildContext.ofMatch node captures).kindAfter node.kind blueprint.kind = .ok result.kind ∧
    (BuildContext.ofMatch node captures).tokenAfter node.token blueprint.token =
      .ok result.token ∧
    (BuildContext.ofMatch node captures).positionAfter node.position blueprint.position =
      .ok result.position ∧
    propertiesAfter node captures blueprint.properties = .ok result.properties ∧
    slotsAfter node captures blueprint.slots = .ok result.slots :=
  BuildContext.build_eq_ok_iff

/-- An edit of a node changes its properties and slots under the names that its edits mention and
nowhere else, and it keeps kind, token and position unless the blueprint says otherwise. On the way
names stay distinct. A renaming fails exactly if its names differ and both are in use, and then the
whole edit fails; one that succeeds keeps the place of the entry. -/
theorem edit_frame (hproperties : Fields.Distinct node.properties)
    (hslots : Fields.Distinct node.slots) (captures : Captures) (blueprint : Blueprint) :
    (∀ result, (Action.edit blueprint).run node captures = .ok result →
      Fields.Framed (editedNames blueprint.properties) node.properties result.properties ∧
      Fields.Framed (editedNames blueprint.slots) node.slots result.slots ∧
      (blueprint.kind = none → result.kind = node.kind) ∧
      (blueprint.token = .keep → result.token = node.token) ∧
      (blueprint.position = .matched → result.position = node.position) ∧
      propertiesAfter node captures blueprint.properties = .ok result.properties ∧
      slotsAfter node captures blueprint.slots = .ok result.slots) ∧
    Orderly (propertiesAfter node captures) blueprint.properties ∧
    Orderly (slotsAfter node captures) blueprint.slots ∧
    (∀ before after fault, blueprint.properties = before ++ after →
      propertiesAfter node captures before = .error fault →
        ∃ fault, (Action.edit blueprint).run node captures = .error fault) ∧
    ∀ before after fault, blueprint.slots = before ++ after →
      slotsAfter node captures before = .error fault →
        ∃ fault, (Action.edit blueprint).run node captures = .error fault := by
  refine ⟨fun result h => ?_, ?_, ?_, fun before after fault hsplit hfault => ?_,
    fun before after fault hsplit hfault => ?_⟩
  · obtain ⟨hkind, htoken, hposition, hprops, hslot⟩ := edit_eq_ok_iff.mp h
    have hpropsAll := hprops
    have hslotAll := hslot
    rw [propertiesAfter_eq] at hpropsAll
    rw [slotsAfter_eq] at hslotAll
    refine ⟨framed_editAll hpropsAll, framed_editAll hslotAll, fun hsource => ?_,
      fun hchange => ?_, fun hsource => ?_, hprops, hslot⟩
    · rw [hsource] at hkind
      exact BuildContext.kindAfter_none_eq hkind
    · rw [hchange] at htoken
      exact (Except.ok.inj htoken).symm
    · rw [hsource] at hposition
      exact (Except.ok.inj hposition).symm
  · rw [propertiesAfter_eq]
    exact orderly_editAll hproperties _
  · rw [slotsAfter_eq]
    exact orderly_editAll hslots _
  · refine exists_error_of_ne_ok fun result h => ?_
    have hprops := (edit_eq_ok_iff.mp h).2.2.2.1
    rw [propertiesAfter_eq] at hfault hprops
    rw [hsplit] at hprops
    exact editAll_append_ne_ok hfault after hprops
  · refine exists_error_of_ne_ok fun result h => ?_
    have hslot := (edit_eq_ok_iff.mp h).2.2.2.2
    rw [slotsAfter_eq] at hfault hslot
    rw [hsplit] at hslot
    exact editAll_append_ne_ok hfault after hslot

/-- Edits that follow each other up: a name is vacated, stored anew and taken again, and a last
renaming finds both of its names in use. -/
theorem edit_frame_chained :
    let node : Node :=
      { kind := "Call", token := some "f",
        properties := [("a", .bool true), ("b", .null), ("c", .str "kept"), ("d", .bool false)],
        slots := [("left", .single (.leaf "l")), ("right", .single (.leaf "r")),
          ("rest", .sequence [])] }
    let properties : List (Edit ScalarSource) :=
      [.rename "a" "x", .set "a" .matchedKind, .remove "b", .rename "x" "b", .rename "z" "a"]
    let slots : List (Edit SlotSource) :=
      [.rename "left" "lhs", .set "lhs" (.capturedIfAny "none"), .remove "rest",
        .rename "right" "rest"]
    let result : Node :=
      { kind := "Call", token := some "f",
        properties := [("b", .bool true), ("c", .str "kept"), ("d", .bool false),
          ("a", .str "Call")],
        slots := [("lhs", .single (.leaf "l")), ("rest", .single (.leaf "r"))] }
    Fields.Distinct node.properties ∧ Fields.Distinct node.slots ∧
    (Action.edit { properties, slots }).run node [] = .ok result ∧
    Fields.get? result.properties "c" = Fields.get? node.properties "c" ∧
    result.token = node.token ∧
    (∃ fault, (Action.edit { properties := properties ++ [.rename "b" "a"] }).run node [] =
      .error fault) := by
  intro node properties slots result
  have hproperties : Fields.Distinct node.properties := by decide
  have hslots : Fields.Distinct node.slots := by decide
  have hrun : (Action.edit { properties, slots }).run node [] = .ok result := by rfl
  obtain ⟨hframe, -⟩ := edit_frame hproperties hslots [] { properties, slots }
  obtain ⟨hvalues, -, -, htoken, -⟩ := hframe result hrun
  obtain ⟨-, horderly, -, hfails, -⟩ :=
    edit_frame hproperties hslots [] { properties := properties ++ [.rename "b" "a"] }
  have hreached : propertiesAfter node [] properties = .ok result.properties := by rfl
  obtain ⟨fault, hfault⟩ := (horderly.collides properties "b" "a" [] _ rfl hreached).mpr (by decide)
  refine ⟨hproperties, hslots, hrun, hvalues.values "c" (by decide), htoken rfl, ?_⟩
  exact hfails _ [] fault (by simp) hfault

end Action

end CanonicalTree
