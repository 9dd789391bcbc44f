import CanonicalTree.Proofs.Meaning
import CanonicalTree.Proofs.Sameness
import CanonicalTree.Rule.Phase

/-!
# Agreement of what is kept

Each value that a match keeps is compared with the first one of its name only. On well-formed trees
that is enough: a pattern matches exactly if it holds and all values recorded under one name are the
same, and what it keeps is the same as everything recorded. So neither the order of the clauses, at
any depth, nor the order in which values are found shows in the outcome.
-/

namespace CanonicalTree

/-! ## Values kept one after the other -/

/-- In fields that are put behind others, the first ones come first. -/
theorem Fields.get?_append {α : Type} (fields others : Fields α) (key : String) :
    Fields.get? (fields ++ others) key = (Fields.get? fields key).or (Fields.get? others key) := by
  induction fields with
  | nil => simp
  | cons entry rest ih =>
    rw [List.cons_append, Fields.get?, Fields.get?]
    split
    · rfl
    · exact ih

namespace Captures

variable {captures next final : Captures} {entries rest : List (String × Capture)}

/-- The captures hold one value for each name among the entries, and it is the same as all others
of that name. -/
structure Sums (captures : Captures) (entries : List (String × Capture)) : Prop where
  distinct : Fields.Distinct captures
  mem_keys_iff : ∀ name,
    name ∈ Fields.keys captures ↔ name ≠ wildcard ∧ ∃ value, (name, value) ∈ entries
  represents : ∀ name value, Fields.get? captures name = some value →
    (name, value) ∈ entries ∧ ∀ other, (name, other) ∈ entries → value.same other = true

theorem sums_nil : Sums [] [] :=
  ⟨List.nodup_nil, by simp, by simp⟩

/-- A value that adds nothing new leaves the captures as they are. -/
theorem Sums.append_known {name : String} {value : Capture} (h : captures.Sums entries)
    (hknown : name ≠ wildcard → ∃ known, Fields.get? captures name = some known ∧
      known.same value = true) : captures.Sums (entries ++ [(name, value)]) := by
  refine ⟨h.distinct, fun other => ?_, fun other found hfound => ?_⟩
  · rw [h.mem_keys_iff]
    constructor
    · rintro ⟨hne, found, hfound⟩
      exact ⟨hne, found, List.mem_append_left _ hfound⟩
    · rintro ⟨hne, found, hfound⟩
      rcases List.mem_append.mp hfound with hfound | hnew
      · exact ⟨hne, found, hfound⟩
      · cases List.mem_singleton.mp hnew
        obtain ⟨known, hknown, -⟩ := hknown hne
        exact ⟨hne, known, (h.represents _ _ hknown).1⟩
  · obtain ⟨hmem, hsame⟩ := h.represents other found hfound
    refine ⟨List.mem_append_left _ hmem, fun third hthird => ?_⟩
    rcases List.mem_append.mp hthird with hthird | hnew
    · exact hsame third hthird
    · cases List.mem_singleton.mp hnew
      have hkey : name ∈ Fields.keys captures := by
        rw [← Fields.get?_isSome_iff, hfound]
        rfl
      obtain ⟨known, hknown, hvalue⟩ := hknown ((h.mem_keys_iff name).mp hkey).1
      rw [hfound] at hknown
      cases hknown
      exact hvalue

/-- The first value of its name is added behind the others. -/
theorem Sums.append_new {name : String} {value : Capture} (h : captures.Sums entries)
    (hname : name ≠ wildcard) (hnew : Fields.get? captures name = none)
    (hvalue : value.same value = true) :
    Sums (captures ++ [(name, value)]) (entries ++ [(name, value)]) := by
  have hfresh : name ∉ Fields.keys captures := Fields.get?_eq_none_iff.mp hnew
  have hkeys : Fields.keys (captures ++ [(name, value)]) = Fields.keys captures ++ [name] := by
    simp [Fields.keys]
  have hunknown : ∀ other, (name, other) ∉ entries := fun other hother =>
    hfresh ((h.mem_keys_iff name).mpr ⟨hname, other, hother⟩)
  refine ⟨?_, fun other => ?_, fun other found hfound => ?_⟩
  · unfold Fields.Distinct
    rw [hkeys]
    refine List.nodup_append.mpr ⟨h.distinct, by simp, ?_⟩
    intro first hfirst second hsecond heq
    rw [List.mem_singleton.mp hsecond] at heq
    exact hfresh (heq ▸ hfirst)
  · rw [hkeys, List.mem_append, h.mem_keys_iff, List.mem_singleton]
    constructor
    · rintro (⟨hne, found, hfound⟩ | rfl)
      · exact ⟨hne, found, List.mem_append_left _ hfound⟩
      · exact ⟨hname, value, List.mem_append_right _ (List.mem_singleton.mpr rfl)⟩
    · rintro ⟨hne, found, hfound⟩
      rcases List.mem_append.mp hfound with hfound | hfound
      · exact Or.inl ⟨hne, found, hfound⟩
      · cases List.mem_singleton.mp hfound
        exact Or.inr rfl
  · rw [Fields.get?_append] at hfound
    by_cases hother : other = name
    · subst hother
      simp only [hnew, Fields.get?, if_pos, Option.none_or, Option.some.injEq] at hfound
      subst hfound
      refine ⟨List.mem_append_right _ (List.mem_singleton.mpr rfl), fun third hthird => ?_⟩
      rcases List.mem_append.mp hthird with hthird | hthird
      · exact absurd hthird (hunknown third)
      · cases List.mem_singleton.mp hthird
        exact hvalue
    · have hold : Fields.get? captures other = some found := by
        simpa [Fields.get?, Ne.symm hother] using hfound
      obtain ⟨hmem, hsame⟩ := h.represents other found hold
      refine ⟨List.mem_append_left _ hmem, fun third hthird => ?_⟩
      rcases List.mem_append.mp hthird with hthird | hthird
      · exact hsame third hthird
      · cases List.mem_singleton.mp hthird
        exact absurd rfl hother

/-- Keeping one more value sums up one more entry. -/
theorem Sums.keep {name : String} {value : Capture} (h : captures.Sums entries)
    (hvalue : value.same value = true) (hkeep : captures.keep name value = some next) :
    next.Sums (entries ++ [(name, value)]) := by
  unfold Captures.keep at hkeep
  split at hkeep
  · next hname =>
    cases hkeep
    exact h.append_known fun hne => absurd hname hne
  · next hname =>
    split at hkeep
    · next known hknown =>
      split at hkeep
      · next hsame =>
        cases hkeep
        exact h.append_known fun _ => ⟨known, hknown, hsame⟩
      · cases hkeep
    · next hnew =>
      cases hkeep
      exact h.append_new hname hnew hvalue

/-- Keeping more values sums up their entries, if every value is the same as itself. -/
theorem Sums.keepAll (h : captures.Sums entries)
    (hself : ∀ entry ∈ rest, entry.2.same entry.2 = true)
    (hkeep : captures.keepAll rest = some final) : final.Sums (entries ++ rest) := by
  induction rest generalizing captures entries with
  | nil =>
    cases hkeep
    rw [List.append_nil]
    exact h
  | cons entry rest ih =>
    rw [Captures.keepAll, List.foldlM_cons] at hkeep
    obtain ⟨next, hnext, hrest⟩ := Option.bind_eq_some_iff.mp hkeep
    have hentry := h.keep (hself entry List.mem_cons_self) hnext
    have hfinal := ih hentry (fun other hother => hself other (List.mem_cons_of_mem _ hother)) hrest
    rwa [List.append_assoc] at hfinal

/-- Values that agree wherever they share a name can all be kept. -/
theorem Sums.exists_keepAll (h : captures.Sums entries)
    (hself : ∀ entry ∈ rest, entry.2.same entry.2 = true)
    (hagree : ∀ name, name ≠ wildcard → ∀ value other, (name, value) ∈ entries ++ rest →
      (name, other) ∈ entries ++ rest → value.same other = true) :
    ∃ final, captures.keepAll rest = some final := by
  induction rest generalizing captures entries with
  | nil => exact ⟨captures, rfl⟩
  | cons entry rest ih =>
    obtain ⟨name, value⟩ := entry
    have hmem : (name, value) ∈ entries ++ (name, value) :: rest :=
      List.mem_append_right _ List.mem_cons_self
    have hnext : ∃ next, captures.keep name value = some next := by
      unfold Captures.keep
      split
      · exact ⟨_, rfl⟩
      · next hname =>
        split
        · next known hknown =>
          -- what is known already stands among the entries, so it agrees with the value
          have hold := List.mem_append_left ((name, value) :: rest) (h.represents _ _ hknown).1
          rw [if_pos (hagree name hname known value hold hmem)]
          exact ⟨_, rfl⟩
        · exact ⟨_, rfl⟩
    obtain ⟨next, hnext⟩ := hnext
    have hentry := h.keep (hself (name, value) List.mem_cons_self) hnext
    rw [List.append_cons] at hagree
    obtain ⟨final, hfinal⟩ := ih hentry
      (fun other hother => hself other (List.mem_cons_of_mem _ hother)) hagree
    refine ⟨final, ?_⟩
    rw [Captures.keepAll, List.foldlM_cons, hnext]
    exact hfinal

end Captures

/-! ## Recorded values are parts of the node -/

theorem SlotClause.Leads.mem_nodes {clause : SlotClause} {slot : Option Slot} {inner : Pattern}
    {child : Node} (h : clause.Leads slot inner child) :
    ∃ content, slot = some content ∧ child ∈ content.nodes := by
  cases h with
  | single => exact ⟨_, rfl, List.mem_singleton.mpr rfl⟩
  | optional => exact ⟨_, rfl, List.mem_singleton.mpr rfl⟩
  | item _ _ hchild => exact ⟨_, rfl, hchild⟩

/-- A clause keeps exactly the nodes of the slot. -/
theorem SlotClause.Keeps.nodes_eq {clause : SlotClause} {slot : Option Slot} {name : String}
    {value : Capture} (h : clause.Keeps slot name value) :
    ∃ content, slot = some content ∧ value.nodes = content.nodes := by
  cases h with
  | sequence _ _ nodes => exact ⟨_, rfl, rfl⟩
  | any _ slot => exact ⟨slot, rfl, Capture.nodes_ofSlot slot⟩

namespace Pattern

variable {pattern inner : Pattern} {node part : Node} {name : String} {value : Capture}

/-- A pattern reaches only nodes of the tree that it is matched with. -/
theorem Reaches.mem_descendants (h : pattern.Reaches node inner part) :
    part ∈ node.descendants := by
  induction h with
  | here pattern node => exact node.self_mem_descendants
  | step _ hleads _ ih =>
    obtain ⟨content, hslot, hchild⟩ := hleads.mem_nodes
    exact Node.mem_descendants_trans
      (Node.mem_descendants_of_mem_children (Node.mem_children_of_slot? hslot hchild)) ih

/-- What a pattern keeps are nodes of the tree that it is matched with. -/
theorem Keeps.mem_descendants (h : pattern.Keeps node name value) (hpart : part ∈ value.nodes) :
    part ∈ node.descendants := by
  cases h with
  | token hkeeps =>
    obtain ⟨-, text, -, rfl⟩ := hkeeps
    cases hpart
  | property _ hkeeps =>
    obtain ⟨-, actual, -, rfl⟩ := hkeeps
    cases hpart
  | slot _ hkeeps =>
    obtain ⟨content, hslot, hnodes⟩ := hkeeps.nodes_eq
    rw [hnodes] at hpart
    exact Node.mem_descendants_of_mem_children (Node.mem_children_of_slot? hslot hpart)
  | node _ =>
    rw [List.mem_singleton.mp hpart]
    exact node.self_mem_descendants

/-- What is recorded of a well-formed node is well formed. -/
theorem Records.wellFormed (h : pattern.Records node name value) (hnode : node.WellFormed) :
    value.WellFormed := by
  obtain ⟨inner, part, hreaches, hkeeps⟩ := h
  intro piece hpiece
  exact hnode.of_mem_descendants
    (Node.mem_descendants_trans hreaches.mem_descendants (hkeeps.mem_descendants hpiece))

/-- Recorded values are the same as themselves. -/
theorem same_self_of_records {entries : List (String × Capture)} (hnode : node.WellFormed)
    (hentries : ∀ name value, (name, value) ∈ entries ↔ pattern.Records node name value) :
    ∀ entry ∈ entries, entry.2.same entry.2 = true := by
  rintro ⟨name, value⟩ hentry
  exact Capture.same_refl (((hentries name value).mp hentry).wellFormed hnode)

/-! ## Matches -/

/-- A pattern that matches holds, and it keeps one recorded value for each recorded name, the same
as all others of that name. -/
theorem captures?_eq_some {captures : Captures} (hnode : node.WellFormed)
    (h : pattern.captures? node = some captures) :
    pattern.Holds node ∧ Fields.Distinct captures ∧
      (∀ name, name ∈ Fields.keys captures ↔
        name ≠ Captures.wildcard ∧ ∃ value, pattern.Records node name value) ∧
      ∀ name value, Fields.get? captures name = some value → pattern.Records node name value ∧
        ∀ other, pattern.Records node name other → value.same other = true := by
  obtain ⟨entries, hentries, hholds, hfails⟩ := pattern.tries node
  by_cases htests : pattern.Holds node
  · have hself := same_self_of_records hnode hentries
    have hsums : captures.Sums entries :=
      Captures.sums_nil.keepAll hself ((hholds htests []).symm.trans h)
    refine ⟨htests, hsums.distinct, fun name => ?_, fun name value hvalue => ?_⟩
    · rw [hsums.mem_keys_iff]
      simp only [hentries]
    · obtain ⟨hmem, hsame⟩ := hsums.represents name value hvalue
      exact ⟨(hentries name value).mp hmem, fun other hother =>
        hsame other ((hentries name other).mpr hother)⟩
  · rw [Pattern.captures?, hfails htests] at h
    cases h

/-- A pattern matches a node exactly if it holds and its records are consistent. -/
theorem exists_captures?_iff (hnode : node.WellFormed) :
    (∃ captures, pattern.captures? node = some captures) ↔
      pattern.Holds node ∧ pattern.Consistent node := by
  constructor
  · rintro ⟨captures, hcaptures⟩
    obtain ⟨htests, -, hkeys, hvalues⟩ := captures?_eq_some hnode hcaptures
    refine ⟨htests, fun name hname value other hvalue hother => ?_⟩
    have hkey := (hkeys name).mpr ⟨hname, value, hvalue⟩
    obtain ⟨first, hfirst⟩ :=
      Option.isSome_iff_exists.mp ((Fields.get?_isSome_iff captures name).mpr hkey)
    -- both values were compared with the first one of their name, and only with it
    obtain ⟨hrecorded, hsame⟩ := hvalues name first hfirst
    exact Capture.same_euclidean (hrecorded.wellFormed hnode) (hvalue.wellFormed hnode)
      (hother.wellFormed hnode) (hsame value hvalue) (hsame other hother)
  · rintro ⟨htests, hconsistent⟩
    obtain ⟨entries, hentries, hholds, -⟩ := pattern.tries node
    have hself := same_self_of_records hnode hentries
    have hagree : ∀ name, name ≠ Captures.wildcard → ∀ value other, (name, value) ∈ [] ++ entries →
        (name, other) ∈ [] ++ entries → value.same other = true := by
      intro name hname value other hvalue hother
      exact hconsistent name hname value other ((hentries name value).mp hvalue)
        ((hentries name other).mp hother)
    obtain ⟨captures, hcaptures⟩ := Captures.sums_nil.exists_keepAll hself hagree
    exact ⟨captures, (hholds htests []).trans hcaptures⟩

end Pattern

/-! ## Reordered patterns -/

mutual

/-- The patterns differ in nothing but the order of clauses, at any depth. -/
inductive Pattern.Reordered : Pattern → Pattern → Prop
  | intro (kind : KindClause) (token : TokenClause)
    {properties properties' : List (String × PropertyClause)}
    {slots slots' : List (String × SlotClause)} (bind : Option String) :
    properties.Perm properties' → Pattern.ReorderedClauses slots slots' →
      Pattern.Reordered ⟨kind, token, properties, slots, bind⟩
        ⟨kind, token, properties', slots', bind⟩

/-- The lists hold the same clauses up to the order of clauses, in the lists and within. -/
inductive Pattern.ReorderedClauses :
    List (String × SlotClause) → List (String × SlotClause) → Prop
  | nil : Pattern.ReorderedClauses [] []
  | cons (name : String) {clause clause' : SlotClause} {rest rest' : List (String × SlotClause)} :
    SlotClause.Reordered clause clause' → Pattern.ReorderedClauses rest rest' →
      Pattern.ReorderedClauses ((name, clause) :: rest) ((name, clause') :: rest')
  | swap (first second : String × SlotClause) (rest : List (String × SlotClause)) :
    Pattern.ReorderedClauses (first :: second :: rest) (second :: first :: rest)
  | trans {first second third : List (String × SlotClause)} :
    Pattern.ReorderedClauses first second → Pattern.ReorderedClauses second third →
      Pattern.ReorderedClauses first third

/-- The clauses try patterns that differ in nothing but the order of clauses. -/
inductive SlotClause.Reordered : SlotClause → SlotClause → Prop
  | refl (clause : SlotClause) : SlotClause.Reordered clause clause
  | single {pattern pattern' : Pattern} : Pattern.Reordered pattern pattern' →
      SlotClause.Reordered (.single pattern) (.single pattern')
  | optional {pattern pattern' : Pattern} : Pattern.Reordered pattern pattern' →
      SlotClause.Reordered (.optional pattern) (.optional pattern')
  | sequence {pattern pattern' : Pattern} (bind : Option String) :
      Pattern.Reordered pattern pattern' →
      SlotClause.Reordered (.sequence (some pattern) bind) (.sequence (some pattern') bind)

end

/-- The patterns hold of the same nodes and record the same values. -/
def Pattern.Equivalent (pattern other : Pattern) : Prop :=
  ∀ node, (pattern.Holds node ↔ other.Holds node) ∧
    ∀ name value, pattern.Records node name value ↔ other.Records node name value

/-- The clauses hold of the same slots and record the same values. -/
def SlotClause.Equivalent (clause other : SlotClause) : Prop :=
  ∀ slot, (clause.Holds slot ↔ other.Holds slot) ∧
    ∀ name value, clause.Records slot name value ↔ other.Records slot name value

mutual

/-- A pattern with its parts in another order means the same. -/
theorem Pattern.Reordered.equivalent {pattern other : Pattern} :
    pattern.Reordered other → pattern.Equivalent other
  | .intro kind token bind hproperties hslots => by
    intro node
    obtain ⟨hholds, hrecords⟩ := hslots.equivalent node
    refine ⟨?_, fun name value => ?_⟩
    · rw [Pattern.holds_iff, Pattern.holds_iff, hholds]
      simp only [hproperties.mem_iff]
    · rw [Pattern.records_iff, Pattern.records_iff, hrecords]
      simp only [hproperties.mem_iff]

/-- Clauses in another order, each of them reordered, mean the same of a node. -/
theorem Pattern.ReorderedClauses.equivalent {clauses others : List (String × SlotClause)} :
    Pattern.ReorderedClauses clauses others → ∀ node : Node,
      ((∀ clause ∈ clauses, clause.2.Holds (node.slot? clause.1)) ↔
        ∀ clause ∈ others, clause.2.Holds (node.slot? clause.1)) ∧
      ∀ name value, (∃ clause ∈ clauses, clause.2.Records (node.slot? clause.1) name value) ↔
        ∃ clause ∈ others, clause.2.Records (node.slot? clause.1) name value
  | .nil => fun _ => ⟨Iff.rfl, fun _ _ => Iff.rfl⟩
  | .cons name hclause hrest => by
    intro node
    obtain ⟨hholds, hrecords⟩ := hclause.equivalent (node.slot? name)
    obtain ⟨hholds', hrecords'⟩ := hrest.equivalent node
    simp only [List.forall_mem_cons, List.exists_mem_cons_iff, hholds, hrecords, hholds', hrecords',
      implies_true, and_self]
  | .swap first second rest => by
    intro node
    simp only [List.mem_cons, forall_eq_or_imp, exists_eq_or_imp]
    exact ⟨and_left_comm, fun _ _ => or_left_comm⟩
  | .trans hfirst hsecond => by
    intro node
    obtain ⟨hholds, hrecords⟩ := hfirst.equivalent node
    obtain ⟨hholds', hrecords'⟩ := hsecond.equivalent node
    refine ⟨hholds.trans hholds', fun name value => ?_⟩
    exact (hrecords name value).trans (hrecords' name value)

/-- A clause with its patterns in another order means the same. -/
theorem SlotClause.Reordered.equivalent {clause other : SlotClause} :
    clause.Reordered other → clause.Equivalent other
  | .refl clause => fun _ => ⟨Iff.rfl, fun _ _ => Iff.rfl⟩
  | .single h => fun _ => by simp [h.equivalent _]
  | .optional h => fun _ => by simp [h.equivalent _]
  | .sequence bind h => fun _ => by simp [h.equivalent _]

end

/-- Reordering the clauses of a pattern changes neither whether it matches nor, up to sameness, what
it keeps. -/
theorem Pattern.Reordered.captures? {pattern other : Pattern} {node : Node}
    (h : pattern.Reordered other) (hnode : node.WellFormed) :
    Option.Rel (Fields.Alike fun value found => value.same found = true)
      (pattern.captures? node) (other.captures? node) := by
  obtain ⟨hholds, hrecords⟩ := h.equivalent node
  have hconsistent : pattern.Consistent node ↔ other.Consistent node := by
    simp only [Pattern.Consistent, hrecords]
  have hmatch : (∃ captures, pattern.captures? node = some captures) ↔
      ∃ captures, other.captures? node = some captures := by
    rw [Pattern.exists_captures?_iff hnode, Pattern.exists_captures?_iff hnode, hholds, hconsistent]
  cases hpattern : pattern.captures? node with
  | none =>
    cases hother : other.captures? node with
    | none => exact .none
    | some others =>
      obtain ⟨captures, hcaptures⟩ := hmatch.mpr ⟨others, hother⟩
      rw [hpattern] at hcaptures
      cases hcaptures
  | some captures =>
    obtain ⟨others, hother⟩ := hmatch.mp ⟨captures, hpattern⟩
    rw [hother]
    refine .some fun name => ?_
    obtain ⟨-, -, hkeys, hvalues⟩ := Pattern.captures?_eq_some hnode hpattern
    obtain ⟨-, -, hkeys', hvalues'⟩ := Pattern.captures?_eq_some hnode hother
    have hname : name ∈ Fields.keys captures ↔ name ∈ Fields.keys others := by
      rw [hkeys, hkeys']
      simp only [hrecords]
    cases hfound : Fields.get? captures name with
    | none =>
      have hmissing : Fields.get? others name = none := by
        rw [Fields.get?_eq_none_iff] at hfound ⊢
        exact mt hname.mpr hfound
      rw [hmissing]
      exact .none
    | some value =>
      have hkey : name ∈ Fields.keys others := by
        rw [← hname, ← Fields.get?_isSome_iff, hfound]
        rfl
      obtain ⟨found, hfound'⟩ :=
        Option.isSome_iff_exists.mp ((Fields.get?_isSome_iff others name).mpr hkey)
      rw [hfound']
      have hrecorded := (hrecords name found).mpr (hvalues' name found hfound').1
      exact .some ((hvalues name value hfound).2 found hrecorded)

/-- A rule matches a node exactly if every clause of every pattern that its own pattern reaches
allows its node and all values recorded under one name are the same. What it keeps then are the
recorded names, each with a value that is the same as everything recorded under it. The order of the
clauses does not matter. Two nodes are the same if they agree in kind, token and position and hold
the same under every property key and slot name, and two scalars if they are equal or both real
zeros. -/
theorem Rule.captures?_meaning (rule : Rule) (node : Node) (hnode : node.WellFormed) :
    ((∃ captures, rule.captures? node = some captures) ↔
      (∀ pattern part, rule.pattern.Reaches node pattern part → pattern.Fits part) ∧
      ∀ name, name ≠ "_" → ∀ value other, rule.pattern.Records node name value →
        rule.pattern.Records node name other → value.same other = true) ∧
    (∀ captures, rule.captures? node = some captures →
      Fields.Distinct captures ∧
      (∀ name, name ∈ Fields.keys captures ↔
        name ≠ "_" ∧ ∃ value, rule.pattern.Records node name value) ∧
      ∀ name value, Fields.get? captures name = some value →
        ∀ other, rule.pattern.Records node name other → value.same other = true) ∧
    (∀ other : Rule, rule.pattern.Reordered other.pattern →
      Option.Rel (Fields.Alike fun value found => value.same found = true)
        (rule.captures? node) (other.captures? node)) ∧
    (∀ left right : Node, left.WellFormed → right.WellFormed →
      (left.same right = true ↔
        left.kind = right.kind ∧ left.token = right.token ∧ left.position = right.position ∧
        (∀ key, Option.Rel (fun value other => value.sameValue other = true)
          (left.property? key) (right.property? key)) ∧
        ∀ name, Option.Rel (Slot.Related fun child other => child.same other = true)
          (left.slot? name) (right.slot? name))) ∧
    ∀ value other : Scalar, value.sameValue other = true ↔
      value = other ∨ value.IsRealZero ∧ other.IsRealZero := by
  refine ⟨Pattern.exists_captures?_iff hnode, fun captures hcaptures => ?_,
    fun other hother => hother.captures? hnode, fun left right => Node.same_iff,
    fun value other => Scalar.sameValue_iff⟩
  obtain ⟨-, hdistinct, hkeys, hvalues⟩ := Pattern.captures?_eq_some hnode hcaptures
  exact ⟨hdistinct, hkeys, fun name value hvalue => (hvalues name value hvalue).2⟩

/-! Two children that differ in the order of their properties and in the sign of a zero. -/

def leftTwin : Node :=
  { kind := "item"
    properties := [("zero", .num (.real ⟨false, ⟨0, by decide⟩⟩)), ("name", .str "n")] }

def rightTwin : Node :=
  { kind := "item"
    properties := [("name", .str "n"), ("zero", .num (.real ⟨true, ⟨0, by decide⟩⟩))] }

def twins : Node :=
  { kind := "pair", slots := [("left", .single leftTwin), ("right", .single rightTwin)] }

/-- A rule that wants the same child in all these slots. -/
def twinRule (slots : List String) : Rule :=
  { pattern :=
      { kind := .only "pair"
        slots := slots.map fun name =>
          (name, .single { kind := .only "item", bind := some "twin" }) }
    action := .replace "twin" }

/-- The twins are kept under one name, whichever comes first. -/
theorem Rule.captures?_meaning_twins :
    twins.WellFormed ∧
    (twinRule ["left", "right"]).pattern.Records twins "twin" (.single leftTwin) ∧
    (twinRule ["left", "right"]).pattern.Records twins "twin" (.single rightTwin) ∧
    leftTwin.same rightTwin = true ∧
    ∃ captures, (twinRule ["right", "left"]).captures? twins = some captures := by
  have hleft : leftTwin.WellFormed :=
    Node.wellFormed_iff.mpr ⟨by decide, by decide, by simp [leftTwin, Node.children]⟩
  have hright : rightTwin.WellFormed :=
    Node.wellFormed_iff.mpr ⟨by decide, by decide, by simp [rightTwin, Node.children]⟩
  have hnode : twins.WellFormed :=
    Node.wellFormed_iff.mpr ⟨by decide, by decide, by
      simp [twins, Node.children, Slot.nodes, hleft, hright]⟩
  obtain ⟨hmatch, -, hreorder, -, -⟩ :=
    Rule.captures?_meaning (twinRule ["left", "right"]) twins hnode
  have hsome : ∃ captures, (twinRule ["left", "right"]).captures? twins = some captures :=
    Option.isSome_iff_exists.mp (by decide +kernel)
  have hrecords : ∀ child, (∃ name ∈ ["left", "right"], twins.slot? name = some (.single child)) →
      (twinRule ["left", "right"]).pattern.Records twins "twin" (.single child) := by
    rintro child ⟨name, hname, hchild⟩
    refine Pattern.records_iff.mpr (Or.inr (Or.inr (Or.inl ⟨_, List.mem_map_of_mem hname, ?_⟩)))
    rw [hchild]
    exact SlotClause.records_single.mpr ⟨child, rfl, Pattern.records_iff.mpr (by simp)⟩
  have hfirst := hrecords leftTwin ⟨"left", by simp, rfl⟩
  have hsecond := hrecords rightTwin ⟨"right", by simp, rfl⟩
  have hsame := (hmatch.mp hsome).2 "twin" (by decide) _ _ hfirst hsecond
  have hrelated := hreorder (twinRule ["right", "left"]) (.intro _ _ _ (.refl _) (.swap _ _ _))
  refine ⟨hnode, hfirst, hsecond, hsame, ?_⟩
  obtain ⟨captures, hcaptures⟩ := hsome
  rw [hcaptures] at hrelated
  cases hother : (twinRule ["right", "left"]).captures? twins with
  | none =>
    rw [hother] at hrelated
    cases hrelated
  | some others => exact ⟨others, rfl⟩

end CanonicalTree
