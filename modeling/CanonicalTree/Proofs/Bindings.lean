import CanonicalTree.Proofs.Agreement

/-!
# Names that are always bound

A pattern ensures a name if some binder of it is tried whenever the pattern matches: a binder on the
token, on a property or on a slot, or on the node itself, at any depth, but not behind a child that
may be missing nor behind the items of a sequence that may be empty. After a match such a name is
bound, to a value of the form that the binder keeps.

An action uses names in four ways, each of which asks for a form. It can fail over a name only
where it uses it, because nothing is bound there or because what is bound has another form; text can
also not be taken of `null`. So an action never fails over a name that the pattern ensures in the
form that is asked for, unless it asks `null` for its text (`Rule.captures?_supply`).
-/

namespace CanonicalTree

/-! ## Forms of values -/

/-- What is known of a kept value before the match. -/
inductive Capture.Form where
  | scalar
  | node
  | sequence
  /-- What a slot can hold: a node or a sequence. -/
  | content
  deriving DecidableEq

namespace Capture.Form

/-- The value has the form. -/
def Admits : Form → Capture → Prop
  | .scalar, value => ∃ scalar, value = .scalar scalar
  | .node, value => ∃ node, value = .single node
  | .sequence, value => ∃ nodes, value = .sequence nodes
  | .content, value => ∃ slot, value = .ofSlot slot

/-- Values of the first form have the second: a node or a sequence is content, and otherwise a form
answers only for itself. -/
def Guarantees (form asked : Form) : Prop :=
  form = asked ∨ asked = .content ∧ (form = .node ∨ form = .sequence)

/-- The form, as it is named in messages. -/
def describe : Form → String
  | .scalar => "a scalar"
  | .node => "a node"
  | .sequence => "a node sequence"
  | .content => "a node or node sequence"

/-- A node or a sequence is what may fill a slot. -/
theorem admits_content_iff {value : Capture} :
    content.Admits value ↔ node.Admits value ∨ sequence.Admits value := by
  constructor
  · rintro ⟨slot, rfl⟩
    cases slot with
    | single node => exact Or.inl ⟨node, rfl⟩
    | sequence nodes => exact Or.inr ⟨nodes, rfl⟩
  · rintro (⟨node, rfl⟩ | ⟨nodes, rfl⟩)
    · exact ⟨.single node, rfl⟩
    · exact ⟨.sequence nodes, rfl⟩

/-- What is of a form is also of every form that the form guarantees. -/
theorem Guarantees.admits {form asked : Form} (h : form.Guarantees asked) {value : Capture}
    (hvalue : form.Admits value) : asked.Admits value := by
  rcases h with rfl | ⟨rfl, rfl | rfl⟩
  · exact hvalue
  · exact admits_content_iff.mpr (Or.inl hvalue)
  · exact admits_content_iff.mpr (Or.inr hvalue)

/-- Values that are the same have the same forms. -/
theorem Admits.of_same {form : Form} {value other : Capture} (h : form.Admits other)
    (hsame : value.same other = true) : form.Admits value := by
  cases form with
  | scalar =>
    obtain ⟨scalar, rfl⟩ := h
    cases value with
    | scalar known => exact ⟨known, rfl⟩
    | _ => simp [Capture.same] at hsame
  | node =>
    obtain ⟨node, rfl⟩ := h
    cases value with
    | single known => exact ⟨known, rfl⟩
    | _ => simp [Capture.same] at hsame
  | sequence =>
    obtain ⟨nodes, rfl⟩ := h
    cases value with
    | sequence known => exact ⟨known, rfl⟩
    | _ => simp [Capture.same] at hsame
  | content =>
    obtain ⟨slot, rfl⟩ := h
    rw [admits_content_iff]
    cases value with
    | single known => exact Or.inl ⟨known, rfl⟩
    | sequence known => exact Or.inr ⟨known, rfl⟩
    | scalar known => cases slot <;> simp [Capture.same, Capture.ofSlot] at hsame

end Capture.Form

/-! ## What a pattern ensures -/

/-- A binder for the name is tried whenever the pattern matches, and keeps values of the form. -/
inductive Pattern.Ensures : Pattern → String → Capture.Form → Prop
  | token {pattern : Pattern} {name : String} :
    pattern.token = .bind name → Ensures pattern name .scalar
  | property {pattern : Pattern} {key name : String} :
    (key, .bind name) ∈ pattern.properties → Ensures pattern name .scalar
  | sequence {pattern : Pattern} {slot name : String} {element : Option Pattern} :
    (slot, .sequence element (some name)) ∈ pattern.slots → Ensures pattern name .sequence
  | content {pattern : Pattern} {slot name : String} :
    (slot, .any (some name)) ∈ pattern.slots → Ensures pattern name .content
  | node {pattern : Pattern} {name : String} :
    pattern.bind = some name → Ensures pattern name .node
  | child {pattern inner : Pattern} {slot name : String} {form : Capture.Form} :
    (slot, .single inner) ∈ pattern.slots → Ensures inner name form → Ensures pattern name form

/-- A pattern that holds records a value for every name that it ensures. -/
theorem Pattern.Ensures.exists_records {pattern : Pattern} {name : String} {form : Capture.Form}
    (h : pattern.Ensures name form) {node : Node} (hholds : pattern.Holds node) :
    ∃ value, pattern.Records node name value ∧ form.Admits value := by
  induction h generalizing node with
  | @token pattern name htoken =>
    obtain ⟨-, hfits, -, -⟩ := holds_iff.mp hholds
    rw [htoken] at hfits
    obtain ⟨text, htext⟩ := Option.ne_none_iff_exists'.mp hfits
    exact ⟨_, records_iff.mpr (Or.inl ⟨htoken, text, htext, rfl⟩), _, rfl⟩
  | @property pattern key name hclause =>
    obtain ⟨-, -, hfits, -⟩ := holds_iff.mp hholds
    obtain ⟨actual, hactual⟩ := Option.ne_none_iff_exists'.mp (hfits _ hclause)
    have hkeeps : (PropertyClause.bind name).Keeps (node.property? key) name (.scalar actual) :=
      ⟨rfl, actual, hactual, rfl⟩
    exact ⟨_, records_iff.mpr (Or.inr (Or.inl ⟨_, hclause, hkeeps⟩)), _, rfl⟩
  | @sequence pattern slot name element hclause =>
    obtain ⟨-, -, -, hslots⟩ := holds_iff.mp hholds
    obtain ⟨nodes, hnodes, -⟩ := SlotClause.holds_sequence.mp (hslots _ hclause)
    have hrecords : (SlotClause.sequence element (some name)).Records (node.slot? slot) name
        (.sequence nodes) := SlotClause.records_sequence.mpr ⟨nodes, hnodes, Or.inr ⟨rfl, rfl⟩⟩
    exact ⟨_, records_iff.mpr (Or.inr (Or.inr (Or.inl ⟨_, hclause, hrecords⟩))), _, rfl⟩
  | @content pattern slot name hclause =>
    obtain ⟨-, -, -, hslots⟩ := holds_iff.mp hholds
    obtain ⟨content, hcontent⟩ :=
      Option.ne_none_iff_exists'.mp (SlotClause.holds_any.mp (hslots _ hclause))
    have hrecords : (SlotClause.any (some name)).Records (node.slot? slot) name (.ofSlot content) :=
      SlotClause.records_any.mpr ⟨content, hcontent, rfl, rfl⟩
    exact ⟨_, records_iff.mpr (Or.inr (Or.inr (Or.inl ⟨_, hclause, hrecords⟩))), _, rfl⟩
  | @node pattern name hbind =>
    exact ⟨_, records_iff.mpr (Or.inr (Or.inr (Or.inr ⟨hbind, rfl⟩))), _, rfl⟩
  | @child pattern inner slot name form hclause _ ih =>
    obtain ⟨-, -, -, hslots⟩ := holds_iff.mp hholds
    obtain ⟨child, hchild, hinner⟩ := SlotClause.holds_single.mp (hslots _ hclause)
    obtain ⟨value, hvalue, hform⟩ := ih hinner
    have hrecords := SlotClause.records_single.mpr ⟨child, hchild, hvalue⟩
    exact ⟨value, records_iff.mpr (Or.inr (Or.inr (Or.inl ⟨_, hclause, hrecords⟩))), hform⟩

namespace Captures

variable {captures next final : Captures} {name other : String} {value known : Capture}

/-- What is kept stays as it is. -/
theorem get?_of_keep (h : Fields.get? captures other = some known)
    (hkeep : captures.keep name value = some next) : Fields.get? next other = some known := by
  unfold Captures.keep at hkeep
  split at hkeep
  · cases hkeep
    exact h
  · split at hkeep
    · split at hkeep
      · cases hkeep
        exact h
      · cases hkeep
    · cases hkeep
      rw [Fields.get?_append, h]
      rfl

/-- A value that could be kept is kept, or the same as what was kept before. -/
theorem exists_get?_of_keep {form : Capture.Form} (hform : form.Admits value)
    (hname : name ≠ wildcard) (hkeep : captures.keep name value = some next) :
    ∃ known, Fields.get? next name = some known ∧ form.Admits known := by
  unfold Captures.keep at hkeep
  rw [if_neg hname] at hkeep
  split at hkeep
  · next known hknown =>
    split at hkeep
    · next hsame =>
      cases hkeep
      exact ⟨known, hknown, hform.of_same hsame⟩
    · cases hkeep
  · next hnew =>
    cases hkeep
    refine ⟨value, ?_, hform⟩
    rw [Fields.get?_append, hnew]
    simp [Fields.get?]

/-- What is kept stays kept when more is kept. -/
theorem get?_of_keepAll {entries : List (String × Capture)}
    (h : Fields.get? captures other = some known)
    (hkeep : captures.keepAll entries = some final) : Fields.get? final other = some known :=
  foldlM_some_invariant (fun captures => Fields.get? captures other = some known)
    (fun _ _ _ _ hstate hnext => get?_of_keep hstate hnext) h hkeep

/-- After entries have been kept, something of the form of each is kept under its name. -/
theorem exists_get?_of_keepAll {entries : List (String × Capture)} {form : Capture.Form}
    (hform : form.Admits value) (hname : name ≠ wildcard) (hentry : (name, value) ∈ entries)
    (hkeep : captures.keepAll entries = some final) :
    ∃ known, Fields.get? final name = some known ∧ form.Admits known := by
  obtain ⟨before, after, rfl⟩ := List.append_of_mem hentry
  rw [Captures.keepAll, List.foldlM_append] at hkeep
  obtain ⟨start, -, hkeep⟩ := Option.bind_eq_some_iff.mp hkeep
  rw [List.foldlM_cons] at hkeep
  obtain ⟨next, hnext, hafter⟩ := Option.bind_eq_some_iff.mp hkeep
  obtain ⟨known, hknown, hadmits⟩ := exists_get?_of_keep hform hname hnext
  exact ⟨known, get?_of_keepAll hknown hafter, hadmits⟩

/-- The wildcard keeps nothing. -/
theorem get?_wildcard_of_keep (h : Fields.get? captures wildcard = none)
    (hkeep : captures.keep name value = some next) : Fields.get? next wildcard = none := by
  unfold Captures.keep at hkeep
  split at hkeep
  · cases hkeep
    exact h
  · next hname =>
    split at hkeep
    · split at hkeep
      · cases hkeep
        exact h
      · cases hkeep
    · cases hkeep
      rw [Fields.get?_append, h]
      simp [Fields.get?, hname]

end Captures

/-- A match keeps the values that the pattern records, one after the other. -/
theorem Pattern.exists_keepAll {pattern : Pattern} {node : Node} {captures : Captures}
    (hmatch : pattern.captures? node = some captures) :
    pattern.Holds node ∧ ∃ entries : List (String × Capture),
      (∀ name value, (name, value) ∈ entries ↔ pattern.Records node name value) ∧
        Captures.keepAll [] entries = some captures := by
  obtain ⟨entries, hentries, hkeeps, hfails⟩ := pattern.tries node
  have hholds : pattern.Holds node := by
    by_contra hnot
    have hnone := hfails hnot []
    rw [show pattern.match? node [] = some captures from hmatch] at hnone
    cases hnone
  exact ⟨hholds, entries, hentries, (hkeeps hholds []).symm.trans hmatch⟩

/-- A match keeps nothing under the wildcard. -/
theorem Pattern.get?_wildcard {pattern : Pattern} {node : Node} {captures : Captures}
    (hmatch : pattern.captures? node = some captures) :
    Fields.get? captures Captures.wildcard = none := by
  obtain ⟨-, entries, -, hkept⟩ := exists_keepAll hmatch
  exact foldlM_some_invariant (fun captures => Fields.get? captures Captures.wildcard = none)
    (fun _ _ _ _ hstate hnext => Captures.get?_wildcard_of_keep hstate hnext) rfl hkept

/-- A name that the pattern ensures is bound after a match, to a value of the form. -/
theorem Pattern.Ensures.exists_get? {pattern : Pattern} {name : String} {form : Capture.Form}
    (h : pattern.Ensures name form) (hname : name ≠ Captures.wildcard) {node : Node}
    {captures : Captures} (hmatch : pattern.captures? node = some captures) :
    ∃ value, Fields.get? captures name = some value ∧ form.Admits value := by
  obtain ⟨hholds, entries, hentries, hkept⟩ := exists_keepAll hmatch
  obtain ⟨value, hrecords, hform⟩ := h.exists_records hholds
  exact Captures.exists_get?_of_keepAll hform hname ((hentries name value).mpr hrecords) hkept

/-! ## What an action uses -/

/-- What a name is used for. -/
inductive Use where
  /-- For the text of a kind, of a token or of a leaf. -/
  | text
  /-- For the value of a property. -/
  | scalar
  /-- For a position, or for the replacement itself. -/
  | node
  /-- For a slot or a part of a slot. -/
  | content
  deriving DecidableEq

/-- The form that a use asks for. -/
def Use.form : Use → Capture.Form
  | .text => .scalar
  | .scalar => .scalar
  | .node => .node
  | .content => .content

/-- The text is that of the name, as it is or with another start. -/
inductive TextSource.Takes : TextSource → String → Prop
  | captured (name : String) : Takes (.captured name) name
  | renamed (name old new : String) : Takes (.renamed name old new) name

mutual

/-- The blueprint uses the name. -/
inductive Blueprint.Asks : Blueprint → String → Use → Prop
  | kind {blueprint : Blueprint} {source : TextSource} {name : String} :
    blueprint.kind = some source → source.Takes name → Blueprint.Asks blueprint name .text
  | token {blueprint : Blueprint} {source : TextSource} {name : String} :
    blueprint.token = .set source → source.Takes name → Blueprint.Asks blueprint name .text
  | position {blueprint : Blueprint} {name : String} :
    blueprint.position = .captured name → Blueprint.Asks blueprint name .node
  | property {blueprint : Blueprint} {key name : String} :
    .set key (.captured name) ∈ blueprint.properties → Blueprint.Asks blueprint name .scalar
  | slot {blueprint : Blueprint} {source : SlotSource} {slot name : String} {use : Use} :
    .set slot source ∈ blueprint.slots → SlotSource.Asks source name use →
      Blueprint.Asks blueprint name use

/-- The content of a slot uses the name. -/
inductive SlotSource.Asks : SlotSource → String → Use → Prop
  | captured (name : String) : SlotSource.Asks (.captured name) name .content
  | capturedIfAny (name : String) : SlotSource.Asks (.capturedIfAny name) name .content
  | build {blueprint : Blueprint} {name : String} {use : Use} :
    Blueprint.Asks blueprint name use → SlotSource.Asks (.build blueprint) name use
  | part {parts : List SlotSource} {part : SlotSource} {name : String} {use : Use} :
    part ∈ parts → SlotSource.Asks part name use → SlotSource.Asks (.sequence parts) name use
  | leaf {source : TextSource} {name : String} :
    source.Takes name → SlotSource.Asks (.leaf source) name .text

end

/-- The action uses the name. -/
inductive Action.Asks : Action → String → Use → Prop
  | build {blueprint : Blueprint} {name : String} {use : Use} :
    blueprint.Asks name use → Asks (.build blueprint) name use
  | edit {blueprint : Blueprint} {name : String} {use : Use} :
    blueprint.Asks name use → Asks (.edit blueprint) name use
  | replace (name : String) : Asks (.replace name) name .node

/-- The fault is about a name. -/
def BuildFault.IsOfName : BuildFault → Prop
  | .unbound _ => True
  | .mismatch _ _ _ => True
  | _ => False

/-- Using the name in this way ends in the fault. -/
inductive Captures.Denies (captures : Captures) : String → Use → BuildFault → Prop
  | unbound {name : String} (use : Use) :
    Fields.get? captures name = none → Denies captures name use (.unbound name)
  | mismatch {name : String} {use : Use} {value : Capture} :
    Fields.get? captures name = some value → ¬ use.form.Admits value →
      Denies captures name use (.mismatch name value.describe use.form.describe)
  | null {name : String} :
    Fields.get? captures name = some (.scalar .null) →
      Denies captures name .text (.mismatch name "null" "text")

/-! ## Where an action fails -/

section Faults

variable {captures : Captures} {context : BuildContext} {name : String} {fault : BuildFault}

/-- A node is refused only because of what is kept under the name. -/
theorem Captures.denies_of_node (h : captures.node name = .error fault) :
    captures.Denies name .node fault := by
  unfold Captures.node at h
  split at h
  · cases h
  · next other hnode hget =>
    cases h
    have hother : ¬ Use.node.form.Admits other := by
      rintro ⟨node, rfl⟩
      exact hnode node rfl
    exact .mismatch hget hother
  · next hget =>
    cases h
    exact .unbound _ hget

theorem Captures.denies_of_slot (h : captures.slot name = .error fault) :
    captures.Denies name .content fault := by
  unfold Captures.slot at h
  split at h
  · cases h
  · cases h
  · next value hget =>
    cases h
    have hvalue : ¬ Use.content.form.Admits (.scalar value) := by
      rintro ⟨slot, hslot⟩
      cases slot <;> cases hslot
    exact .mismatch hget hvalue
  · next hget =>
    cases h
    exact .unbound _ hget

theorem Captures.denies_of_scalar {use : Use} (huse : use.form = .scalar)
    (h : captures.scalar name = .error fault) : captures.Denies name use fault := by
  unfold Captures.scalar at h
  split at h
  · cases h
  · next other hscalar hget =>
    cases h
    have hother : ¬ use.form.Admits other := by
      rw [huse]
      rintro ⟨value, rfl⟩
      exact hscalar value rfl
    have hdenies : captures.Denies name use _ := .mismatch hget hother
    rw [huse] at hdenies
    exact hdenies
  · next hget =>
    cases h
    exact .unbound _ hget

/-- A text is refused only because of what is kept under the name. -/
theorem Captures.denies_of_text (h : captures.text name = .error fault) :
    captures.Denies name .text fault := by
  unfold Captures.text at h
  rcases bind_eq_error_iff.mp h with hscalar | ⟨value, hvalue, h⟩
  · exact denies_of_scalar rfl hscalar
  · cases value with
    | null =>
      cases h
      unfold Captures.scalar at hvalue
      split at hvalue
      · next found hget =>
        cases hvalue
        exact .null hget
      · cases hvalue
      · cases hvalue
    | _ => cases h

namespace BuildContext

/-- If a text fails over a name, it is the name that its source takes. -/
theorem denies_of_text {source : TextSource} (h : context.text source = .error fault)
    (hfault : fault.IsOfName) :
    ∃ name, source.Takes name ∧ context.captures.Denies name .text fault := by
  cases source with
  | literal text => cases h
  | captured name => exact ⟨name, .captured name, Captures.denies_of_text h⟩
  | matchedKind => cases h
  | matchedToken =>
    simp only [BuildContext.text] at h
    split at h
    · cases h
    · cases h
      exact hfault.elim
  | renamed name old new =>
    rcases bind_eq_error_iff.mp h with htext | ⟨text, -, h⟩
    · exact ⟨name, .renamed name old new, Captures.denies_of_text htext⟩
    · cases h

theorem denies_of_kindAfter {kind : String} {source : Option TextSource}
    (h : context.kindAfter kind source = .error fault) (hfault : fault.IsOfName) :
    ∃ text name, source = some text ∧ text.Takes name ∧
      context.captures.Denies name .text fault := by
  -- the check at the end gives a fault that is not about a name
  have hcheck : ∀ chosen : String,
      (if chosen.isEmpty then .error .emptyKind else .ok chosen : Except BuildFault String) ≠
        .error fault := by
    intro chosen hchosen
    split at hchosen
    · cases hchosen
      exact hfault
    · cases hchosen
  unfold kindAfter at h
  cases source with
  | none => exact absurd h (hcheck kind)
  | some text =>
    rcases bind_eq_error_iff.mp h with htext | ⟨chosen, -, h⟩
    · obtain ⟨name, htakes, hdenies⟩ := denies_of_text htext hfault
      exact ⟨text, name, rfl, htakes, hdenies⟩
    · exact absurd h (hcheck chosen)

theorem denies_of_tokenAfter {token : Option String} {change : TokenChange}
    (h : context.tokenAfter token change = .error fault) (hfault : fault.IsOfName) :
    ∃ text name, change = .set text ∧ text.Takes name ∧
      context.captures.Denies name .text fault := by
  cases change with
  | keep => cases h
  | clear => cases h
  | set text =>
    rcases bind_eq_error_iff.mp h with htext | ⟨_, -, h⟩
    · obtain ⟨name, htakes, hdenies⟩ := denies_of_text htext hfault
      exact ⟨text, name, rfl, htakes, hdenies⟩
    · cases h

/-- A position fails only over the name of the node that it is taken from. -/
theorem denies_of_positionAfter {own : Option Span} {source : SpanSource}
    (h : context.positionAfter own source = .error fault) :
    ∃ name, source = .captured name ∧ context.captures.Denies name .node fault := by
  cases source with
  | matched => cases h
  | nowhere => cases h
  | captured name =>
    rcases bind_eq_error_iff.mp h with hnode | ⟨_, -, h⟩
    · exact ⟨name, rfl, Captures.denies_of_node hnode⟩
    · cases h

/-- A renaming never fails over a name that was captured. -/
theorem not_isOfName_of_renameEntry {α : Type} {fields : Fields α} {old new : String}
    (h : renameEntry fields old new = .error fault) : ¬ fault.IsOfName := by
  unfold renameEntry at h
  split at h
  · split at h
    · cases h
      exact id
    · cases h
  · cases h

/-- If an edit of the properties fails over a name, it stores what is kept under that name. -/
theorem denies_of_editProperty {properties : Fields Scalar} {edit : Edit ScalarSource}
    (h : context.editProperty properties edit = .error fault) (hfault : fault.IsOfName) :
    ∃ key name, edit = .set key (.captured name) ∧
      context.captures.Denies name .scalar fault := by
  cases edit with
  | remove key => cases h
  | rename old new => exact absurd hfault (not_isOfName_of_renameEntry h)
  | set key source =>
    rcases bind_eq_error_iff.mp h with hscalar | ⟨_, -, h⟩
    · cases source with
      | literal value => cases hscalar
      | matchedKind => cases hscalar
      | captured name => exact ⟨key, name, rfl, Captures.denies_of_scalar rfl hscalar⟩
    · cases h

mutual

/-- A blueprint fails over a name only where it uses it. -/
theorem denies_of_build (hfault : fault.IsOfName) :
    ∀ (blueprint : Blueprint) {base : Node} {own : Option Span},
      context.build base own blueprint = .error fault →
        ∃ name use, blueprint.Asks name use ∧ context.captures.Denies name use fault
  | ⟨kind, token, position, properties, slots⟩, base, own, h => by
    rw [build] at h
    rcases bind_eq_error_iff.mp h with hkind | ⟨newKind, -, h⟩
    · obtain ⟨text, name, hsource, htakes, hdenies⟩ := denies_of_kindAfter hkind hfault
      exact ⟨name, .text, .kind hsource htakes, hdenies⟩
    rcases bind_eq_error_iff.mp h with htoken | ⟨newToken, -, h⟩
    · obtain ⟨text, name, hsource, htakes, hdenies⟩ := denies_of_tokenAfter htoken hfault
      exact ⟨name, .text, .token hsource htakes, hdenies⟩
    rcases bind_eq_error_iff.mp h with hposition | ⟨newPosition, -, h⟩
    · obtain ⟨name, hsource, hdenies⟩ := denies_of_positionAfter hposition
      exact ⟨name, .node, .position hsource, hdenies⟩
    rcases bind_eq_error_iff.mp h with hproperties | ⟨newProperties, -, h⟩
    · obtain ⟨before, edit, after, state, hsplit, -, hedit⟩ :=
        exists_split_of_foldlM_eq_error hproperties
      obtain ⟨key, name, rfl, hdenies⟩ := denies_of_editProperty hedit hfault
      have hmem : Edit.set key (.captured name) ∈ properties :=
        hsplit ▸ List.mem_append_cons_self
      exact ⟨name, .scalar, .property hmem, hdenies⟩
    rcases bind_eq_error_iff.mp h with hslots | ⟨newSlots, -, h⟩
    · obtain ⟨slot, source, name, use, hmem, hasks, hdenies⟩ :=
        denies_of_editSlots hfault slots hslots
      exact ⟨name, use, .slot hmem hasks, hdenies⟩
    · cases h

/-- If edits of the slots fail over a name, one of their sources asks for it. -/
theorem denies_of_editSlots (hfault : fault.IsOfName) :
    ∀ (edits : List (Edit SlotSource)) {slots : Fields Slot},
      context.editSlots slots edits = .error fault →
        ∃ slot source name use, .set slot source ∈ edits ∧ source.Asks name use ∧
          context.captures.Denies name use fault
  | [], slots, h => by
    rw [editSlots] at h
    cases h
  | .set key source :: rest, slots, h => by
    rw [editSlots] at h
    rcases bind_eq_error_iff.mp h with hsource | ⟨content, -, h⟩
    · obtain ⟨name, use, hasks, hdenies⟩ := denies_of_slot hfault source hsource
      exact ⟨key, source, name, use, List.mem_cons_self, hasks, hdenies⟩
    · have hrest : ∃ slots, context.editSlots slots rest = .error fault := by
        cases content with
        | none => exact ⟨_, h⟩
        | some content => exact ⟨_, h⟩
      obtain ⟨slots, hrest⟩ := hrest
      obtain ⟨slot, source, name, use, hmem, hfound⟩ := denies_of_editSlots hfault rest hrest
      exact ⟨slot, source, name, use, List.mem_cons_of_mem _ hmem, hfound⟩
  | .remove key :: rest, slots, h => by
    rw [editSlots] at h
    obtain ⟨slot, source, name, use, hmem, hfound⟩ := denies_of_editSlots hfault rest h
    exact ⟨slot, source, name, use, List.mem_cons_of_mem _ hmem, hfound⟩
  | .rename old new :: rest, slots, h => by
    rw [editSlots] at h
    rcases bind_eq_error_iff.mp h with hrename | ⟨slots, -, h⟩
    · exact absurd hfault (not_isOfName_of_renameEntry hrename)
    · obtain ⟨slot, source, name, use, hmem, hfound⟩ := denies_of_editSlots hfault rest h
      exact ⟨slot, source, name, use, List.mem_cons_of_mem _ hmem, hfound⟩

/-- If the content of a slot fails over a name, its source asks for it. -/
theorem denies_of_slot (hfault : fault.IsOfName) :
    ∀ (source : SlotSource), context.slot source = .error fault →
      ∃ name use, source.Asks name use ∧ context.captures.Denies name use fault
  | .captured name, h => by
    rw [slot] at h
    rcases bind_eq_error_iff.mp h with hslot | ⟨_, -, h⟩
    · exact ⟨name, .content, .captured name, Captures.denies_of_slot hslot⟩
    · cases h
  | .capturedIfAny name, h => by
    rw [slot] at h
    split at h
    · rcases bind_eq_error_iff.mp h with hslot | ⟨_, -, h⟩
      · exact ⟨name, .content, .capturedIfAny name, Captures.denies_of_slot hslot⟩
      · cases h
    · cases h
  | .build blueprint, h => by
    rw [slot] at h
    rcases bind_eq_error_iff.mp h with hbuild | ⟨_, -, h⟩
    · obtain ⟨name, use, hasks, hdenies⟩ := denies_of_build hfault blueprint hbuild
      exact ⟨name, use, .build hasks, hdenies⟩
    · cases h
  | .leaf source, h => by
    rw [slot] at h
    rcases bind_eq_error_iff.mp h with htext | ⟨_, -, h⟩
    · obtain ⟨name, htakes, hdenies⟩ := denies_of_text htext hfault
      exact ⟨name, .text, .leaf htakes, hdenies⟩
    · cases h
  | .sequence parts, h => by
    rw [slot] at h
    rcases bind_eq_error_iff.mp h with hparts | ⟨_, -, h⟩
    · obtain ⟨part, name, use, hmem, hasks, hdenies⟩ := denies_of_sequence hfault parts hparts
      exact ⟨name, use, .part hmem hasks, hdenies⟩
    · cases h

/-- If a sequence fails over a name, one of its parts asks for it. -/
theorem denies_of_sequence (hfault : fault.IsOfName) :
    ∀ (parts : List SlotSource), context.sequence parts = .error fault →
      ∃ part name use, part ∈ parts ∧ part.Asks name use ∧
        context.captures.Denies name use fault
  | [], h => by
    rw [sequence] at h
    cases h
  | part :: rest, h => by
    rw [sequence] at h
    rcases bind_eq_error_iff.mp h with hpart | ⟨content, -, h⟩
    · obtain ⟨name, use, hasks, hdenies⟩ := denies_of_slot hfault part hpart
      exact ⟨part, name, use, List.mem_cons_self, hasks, hdenies⟩
    · rcases bind_eq_error_iff.mp h with hrest | ⟨nodes, -, h⟩
      · obtain ⟨part, name, use, hmem, hfound⟩ := denies_of_sequence hfault rest hrest
        exact ⟨part, name, use, List.mem_cons_of_mem _ hmem, hfound⟩
      · cases content <;> cases h

end

end BuildContext

end Faults

/-- If an action fails over a name, it asks for the name, and what is kept there does not serve. -/
theorem Action.denies_of_run {action : Action} {node : Node} {captures : Captures}
    {fault : BuildFault} (h : action.run node captures = .error fault) (hfault : fault.IsOfName) :
    ∃ name use, action.Asks name use ∧ captures.Denies name use fault := by
  cases action with
  | build blueprint =>
    obtain ⟨name, use, hasks, hdenies⟩ := BuildContext.denies_of_build hfault blueprint h
    exact ⟨name, use, .build hasks, hdenies⟩
  | edit blueprint =>
    obtain ⟨name, use, hasks, hdenies⟩ := BuildContext.denies_of_build hfault blueprint h
    exact ⟨name, use, .edit hasks, hdenies⟩
  | replace name => exact ⟨name, .node, .replace name, Captures.denies_of_node h⟩

/-- After a match every name that the pattern ensures is bound, to a value of the form that it
ensures. So the action can miss a name only if the pattern does not ensure it, and can find a value
of the wrong form only where it asks for a form that the pattern does not ensure for the name, or
for the text of `null`. -/
theorem Rule.captures?_supply (rule : Rule) (node : Node) (captures : Captures)
    (h : rule.captures? node = some captures) :
    (∀ name form, name ≠ Captures.wildcard → rule.pattern.Ensures name form →
      ∃ value, Fields.get? captures name = some value ∧ form.Admits value) ∧
    (∀ name, rule.action.run node captures = .error (.unbound name) →
      (∃ use, rule.action.Asks name use) ∧
        (name = Captures.wildcard ∨ ∀ form, ¬ rule.pattern.Ensures name form)) ∧
    ∀ name found expected,
      rule.action.run node captures = .error (.mismatch name found expected) →
      ∃ use, rule.action.Asks name use ∧
        ((expected = use.form.describe ∧
            ∀ form, rule.pattern.Ensures name form → ¬ form.Guarantees use.form) ∨
          (use = .text ∧ expected = "text" ∧
            Fields.get? captures name = some (.scalar .null))) := by
  have hbound : ∀ name form, name ≠ Captures.wildcard → rule.pattern.Ensures name form →
      ∃ value, Fields.get? captures name = some value ∧ form.Admits value :=
    fun name form hname hensures => hensures.exists_get? hname h
  refine ⟨hbound, fun name hrun => ?_, fun name found expected hrun => ?_⟩
  · obtain ⟨asked, use, hasks, hdenies⟩ := Action.denies_of_run hrun trivial
    cases hdenies with
    | unbound _ hnone =>
      refine ⟨⟨use, hasks⟩, or_iff_not_imp_left.mpr fun hname form hensures => ?_⟩
      obtain ⟨value, hvalue, -⟩ := hbound name form hname hensures
      rw [hnone] at hvalue
      cases hvalue
  · obtain ⟨asked, use, hasks, hdenies⟩ := Action.denies_of_run hrun trivial
    cases hdenies with
    | null hnull => exact ⟨.text, hasks, Or.inr ⟨rfl, rfl, hnull⟩⟩
    | mismatch hvalue hform =>
      refine ⟨use, hasks, Or.inl ⟨rfl, fun form hensures hguarantees => ?_⟩⟩
      have hname : name ≠ Captures.wildcard := by
        rintro rfl
        rw [Pattern.get?_wildcard h] at hvalue
        cases hvalue
      obtain ⟨known, hknown, hadmits⟩ := hbound name form hname hensures
      rw [hvalue] at hknown
      cases hknown
      exact hform (hguarantees.admits hadmits)

/-- A rule that puts the body in the place of a statement, as if the body were one node. -/
def unwrapping : Rule where
  name := "unwrap"
  pattern :=
    { token := .bind "label"
      slots := [("body", .sequence (some { bind := some "item" }) (some "body")),
        ("else", .optional { bind := some "other" })] }
  action := .replace "body"

/-- The body is a sequence, so the rule fails as soon as it matches; the items of the body are
not bound at all if there are none. -/
theorem Rule.captures?_supply_unwrapping :
    let node : Node := { kind := "loop", token := some "outer", slots := [("body", .sequence [])] }
    let captures : Captures := [("label", .scalar (.str "outer")), ("body", .sequence [])]
    unwrapping.captures? node = some captures ∧
      unwrapping.action.run node captures =
        .error (.mismatch "body" "a node sequence" "a node") ∧
      (∃ value, Fields.get? captures "label" = some value ∧ Capture.Form.scalar.Admits value) ∧
      ∀ form, unwrapping.pattern.Ensures "body" form → ¬ form.Guarantees .node := by
  intro node captures
  have hmatch : unwrapping.captures? node = some captures := by cbv
  have hrun : unwrapping.action.run node captures =
      .error (.mismatch "body" "a node sequence" "a node") := by cbv
  obtain ⟨hbound, -, hmismatch⟩ := Rule.captures?_supply unwrapping node captures hmatch
  refine ⟨hmatch, hrun, hbound "label" .scalar (by decide) (.token rfl), ?_⟩
  obtain ⟨use, hasks, ⟨-, hforms⟩ | ⟨-, hexpected, -⟩⟩ := hmismatch _ _ _ hrun
  · cases hasks
    exact hforms
  · simp at hexpected

end CanonicalTree
