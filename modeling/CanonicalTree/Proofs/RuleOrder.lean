import CanonicalTree.Compiler
import CanonicalTree.Proofs.Refusals
import Mathlib.Data.List.Perm.Basic

/-!
# The order of rules

Of several rules that match a node the first one counts, so in general a phase depends on the order
of its rules. If no kind is asked for by two of them, at most one rule matches a node, and whether a
rule fires is a matter of the rule alone, not of its place (`Phase.fires_iff`). The rules may then
stand in any order: one node comes to the same, and so do whole trees, where the children have been
rewritten by the reordered rules as well. Failures keep their path, their rule and their message;
what changes is the index under which the rule is listed (`Phase.apply_perm`).
-/

namespace CanonicalTree

/-- No kind satisfies both clauses. -/
def KindClause.Apart (clause other : KindClause) : Prop :=
  ∀ kind, clause.accepts kind = true → ¬ other.accepts kind = true

theorem KindClause.Apart.symm {clause other : KindClause} (h : clause.Apart other) :
    other.Apart clause :=
  fun kind hother hclause => h kind hclause hother

/-- Two kinds are apart if they differ. -/
theorem KindClause.apart_only_iff {kind other : String} :
    (only kind).Apart (only other) ↔ kind ≠ other := by
  simp only [Apart, accepts, beq_iff_eq]
  exact ⟨fun h heq => h kind rfl heq.symm, fun hne _ hkind hother => hne (hkind.trans hother.symm)⟩

/-- A rule matches nodes of the kinds that it asks for only. -/
theorem Rule.accepts_of_captures? {rule : Rule} {node : Node} {captures : Captures}
    (h : rule.captures? node = some captures) : rule.pattern.kind.accepts node.kind = true := by
  obtain ⟨name, ⟨kind, token, properties, slots, bind⟩, action⟩ := rule
  by_contra hkind
  rw [Rule.captures?, Pattern.captures?, Pattern.match?, if_neg hkind] at h
  cases h

namespace Phase

/-- No kind is asked for by two of the rules. A rule for any kind is apart only from rules that
accept no kind at all. -/
def RulesApart (rules : List Rule) : Prop :=
  rules.Pairwise fun rule other => rule.pattern.kind.Apart other.pattern.kind

/-- Rules for one kind each are apart if their kinds are different. -/
theorem rulesApart_of_only {rules : List Rule} {kinds : List String}
    (h : rules.map (·.pattern.kind) = kinds.map .only) (hkinds : kinds.Nodup) :
    RulesApart rules := by
  have hclauses : (rules.map (·.pattern.kind)).Pairwise KindClause.Apart := by
    rw [h, List.pairwise_map]
    exact hkinds.imp fun hne => KindClause.apart_only_iff.mpr hne
  exact List.pairwise_map.mp hclauses

variable {phase other : Phase} {rules others : List Rule} {node : Node}

/-! ## Which rule fires -/

/-- Rules that are apart are so in any order. -/
theorem RulesApart.perm (h : RulesApart rules) (hperm : others.Perm rules) : RulesApart others :=
  (hperm.pairwise_iff fun hapart => hapart.symm).mpr h

/-- Of rules that are apart, each one that matches fires. -/
theorem fires_iff (h : RulesApart rules) {index : Nat} {rule : Rule} {captures : Captures} :
    Fires rules node index rule captures ↔
      rules[index]? = some rule ∧ rule.captures? node = some captures := by
  refine ⟨fun hfires => ⟨hfires.getElem?_eq, hfires.captures_eq⟩, ?_⟩
  rintro ⟨hrule, hcaptures⟩
  refine ⟨hrule, hcaptures, fun i earlier hi hearlier => ?_⟩
  obtain ⟨hlower, rfl⟩ := List.getElem?_eq_some_iff.mp hearlier
  obtain ⟨hindex, rfl⟩ := List.getElem?_eq_some_iff.mp hrule
  -- two rules that match the node would both ask for its kind
  have hapart := List.pairwise_iff_getElem.mp h i index hlower hindex hi
  rw [Option.eq_none_iff_forall_ne_some]
  intro found hfound
  exact hapart node.kind (Rule.accepts_of_captures? hfound) (Rule.accepts_of_captures? hcaptures)

/-- The rule that fires also fires when the rules stand in another order, at some other place. -/
theorem exists_fires_of_perm (h : RulesApart rules) (hperm : others.Perm rules) {index : Nat}
    {rule : Rule} {captures : Captures} (hfires : Fires rules node index rule captures) :
    ∃ place, Fires others node place rule captures := by
  have hmem : rule ∈ others := hperm.mem_iff.mpr (List.mem_of_getElem? hfires.getElem?_eq)
  obtain ⟨place, hplace⟩ := List.getElem?_of_mem hmem
  exact ⟨place, (fires_iff (h.perm hperm)).mpr ⟨hplace, hfires.captures_eq⟩⟩

/-- If no rule matches, none does in another order. -/
theorem firstMatch?_eq_none_of_perm (h : RulesApart rules) (hperm : others.Perm rules)
    (hnone : firstMatch? node 0 rules = none) : firstMatch? node 0 others = none := by
  rw [Option.eq_none_iff_forall_ne_some]
  rintro ⟨found, rule, captures⟩ hfound
  obtain ⟨place, -, hfires⟩ := firstMatch?_eq_some_iff.mp hfound
  obtain ⟨index, hindex⟩ := exists_fires_of_perm (h.perm hperm) hperm.symm hfires
  have hmatch := firstMatch?_eq_some_iff.mpr ⟨index, (Nat.zero_add index).symm, hindex⟩
  rw [hnone] at hmatch
  cases hmatch

/-! ## Outcomes up to the index of a rule -/

section Reindexed

variable {α β : Type} {outcome outcome' : Except Failure α}

/-- Both outcomes are the same result, or they are failures with the same path, phase, rule and
message, where each gives the index of the rule in its own phase. -/
def Reindexed (phase other : Phase) (outcome outcome' : Except Failure α) : Prop :=
  (∃ result, outcome = .ok result ∧ outcome' = .ok result) ∨
    ∃ path i j rule message, phase.rules[i]? = some rule ∧ other.rules[j]? = some rule ∧
      outcome = .error ⟨path, .ruleApplication phase.name i rule.name message⟩ ∧
      outcome' = .error ⟨path, .ruleApplication phase.name j rule.name message⟩

namespace Reindexed

theorem ok (result : α) : phase.Reindexed other (.ok result) (.ok result) :=
  Or.inl ⟨result, rfl, rfl⟩

theorem bind {step step' : α → Except Failure β} (h : phase.Reindexed other outcome outcome')
    (hstep : ∀ result, phase.Reindexed other (step result) (step' result)) :
    phase.Reindexed other (outcome >>= step) (outcome' >>= step') := by
  rcases h with ⟨result, rfl, rfl⟩ | ⟨path, i, j, rule, message, hi, hj, rfl, rfl⟩
  · exact hstep result
  · exact Or.inr ⟨path, i, j, rule, message, hi, hj, rfl, rfl⟩

theorem map (f : α → β) (h : phase.Reindexed other outcome outcome') :
    phase.Reindexed other (outcome >>= fun result => pure (f result))
      (outcome' >>= fun result => pure (f result)) :=
  h.bind fun result => ok (f result)

theorem within (segment : Segment) (h : phase.Reindexed other outcome outcome') :
    phase.Reindexed other (CanonicalTree.within segment outcome)
      (CanonicalTree.within segment outcome') := by
  rcases h with ⟨result, rfl, rfl⟩ | ⟨path, i, j, rule, message, hi, hj, rfl, rfl⟩
  · exact ok result
  · exact Or.inr ⟨segment :: path, i, j, rule, message, hi, hj, rfl, rfl⟩

end Reindexed

end Reindexed

/-! ## Trees -/

/-- A node is replaced alike in any order of rules that are apart. -/
theorem replace_reindexed (hname : other.name = phase.name) (hperm : other.rules.Perm phase.rules)
    (hapart : RulesApart phase.rules) (node : Node) :
    phase.Reindexed other (phase.replace node) (other.replace node) := by
  cases hmatch : firstMatch? node 0 phase.rules with
  | none =>
    have hother := firstMatch?_eq_none_of_perm hapart hperm hmatch
    simp only [replace, hmatch, hother]
    exact .ok node
  | some found =>
    obtain ⟨index, rule, captures⟩ := found
    obtain ⟨_, hindex, hfires⟩ := firstMatch?_eq_some_iff.mp hmatch
    rw [Nat.zero_add] at hindex
    subst hindex
    obtain ⟨place, hplace⟩ := exists_fires_of_perm hapart hperm hfires
    have hother := firstMatch?_eq_some_iff.mpr ⟨place, (Nat.zero_add place).symm, hplace⟩
    cases hrun : rule.action.run node captures with
    | ok result =>
      rw [replace_of_run_ok hmatch hrun, replace_of_run_ok hother hrun]
      exact .ok result
    | error fault =>
      rw [replace_of_run_error hmatch hrun, replace_of_run_error hother hrun, hname]
      exact Or.inr ⟨Path.root, index, place, rule, fault.message, hfires.getElem?_eq,
        hplace.getElem?_eq, rfl, rfl⟩

/-- Both phases come to the same for this tree, up to the index of a rule. -/
def Alike (phase other : Phase) (tree : Node) : Prop :=
  phase.Reindexed other (phase.transform tree) (other.transform tree)

/-- A sequence is transformed alike if each of its nodes is. -/
theorem transformNodes_reindexed {nodes : List Node} {i : Nat}
    (h : ∀ node ∈ nodes, phase.Alike other node) :
    phase.Reindexed other (phase.transformNodes i nodes) (other.transformNodes i nodes) := by
  induction nodes generalizing i with
  | nil =>
    rw [transformNodes, transformNodes]
    exact .ok []
  | cons node rest ih =>
    obtain ⟨hnode, hrest⟩ := List.forall_mem_cons.mp h
    rw [transformNodes, transformNodes]
    exact (hnode.within (.index i)).bind fun first => (ih hrest).map (first :: ·)

theorem transformSlot_reindexed {slot : Slot} (h : ∀ node ∈ slot.nodes, phase.Alike other node) :
    phase.Reindexed other (phase.transformSlot slot) (other.transformSlot slot) := by
  cases slot with
  | single node =>
    rw [transformSlot, transformSlot]
    exact Reindexed.map Slot.single (h node (List.mem_singleton.mpr rfl))
  | sequence nodes =>
    rw [transformSlot, transformSlot]
    exact (transformNodes_reindexed h).map Slot.sequence

theorem transformSlots_reindexed {slots : Fields Slot}
    (h : ∀ entry ∈ slots, ∀ node ∈ entry.2.nodes, phase.Alike other node) :
    phase.Reindexed other (phase.transformSlots slots) (other.transformSlots slots) := by
  induction slots with
  | nil =>
    rw [transformSlots, transformSlots]
    exact .ok []
  | cons entry rest ih =>
    obtain ⟨name, slot⟩ := entry
    obtain ⟨hslot, hrest⟩ := List.forall_mem_cons.mp h
    rw [transformSlots, transformSlots]
    refine ((transformSlot_reindexed hslot).within (.field name)).bind fun first => ?_
    exact (ih hrest).map ((name, first) :: ·)

/-- Every tree is transformed alike in any order of rules that are apart. -/
theorem alike_of_perm (hname : other.name = phase.name) (hperm : other.rules.Perm phase.rules)
    (hapart : RulesApart phase.rules) (tree : Node) : phase.Alike other tree := by
  induction tree using Node.induction_children with
  | step tree ih =>
    obtain ⟨kind, token, position, properties, slots⟩ := tree
    unfold Alike
    rw [transform, transform]
    refine (transformSlots_reindexed fun entry hentry child hchild => ?_).bind fun rewritten => ?_
    · exact ih child (Node.mem_children.mpr ⟨entry, hentry, hchild⟩)
    · exact replace_reindexed hname hperm hapart _

/-- If no kind is asked for by two rules of a phase, its rules may stand in any order: the reordered
phase gives the same tree, or it fails as well, at the same path, with the same rule and the same
message. Only the index of the rule is that of its new place. -/
theorem apply_perm (phase other : Phase) (hname : other.name = phase.name)
    (hperm : other.rules.Perm phase.rules) (hapart : RulesApart phase.rules) (tree : Node) :
    (∃ result, phase.apply tree = .ok result ∧ other.apply tree = .ok result) ∨
    ∃ path i j rule message, phase.rules[i]? = some rule ∧ other.rules[j]? = some rule ∧
      phase.apply tree = .error ⟨path, .ruleApplication phase.name i rule.name message⟩ ∧
      other.apply tree = .error ⟨path, .ruleApplication phase.name j rule.name message⟩ := by
  rw [apply_eq_transform, apply_eq_transform]
  exact alike_of_perm hname hperm hapart tree

end Phase

namespace Compiler

/-- The compiler's nodes are normalized by one rule for each kind. -/
theorem rulesApart_normalize : Phase.RulesApart normalize.rules := by
  have hkinds :
      (Fields.keys declarations ++ Fields.keys simpleKinds ++ ["PrivateIdentifier"]).Nodup := by
    decide
  exact Phase.rulesApart_of_only rfl hkinds

/-- A class that has both members and a body, behind an identifier. -/
def embodiedClass : Node :=
  { kind := "SourceFile"
    slots :=
      [("statements", .sequence
        [{ kind := "Identifier", token := some "a" },
         { kind := "ClassDeclaration"
           slots := [("members", .sequence []), ("body", .single { kind := "Block" })] }])] }

/-- The class is refused whether its rule is the fourth from the start or from the end. -/
theorem apply_perm_embodiedClass :
    let reversed : Phase := { normalize with rules := normalize.rules.reverse }
    let refusal (index : Nat) : Except Failure Node := .error
      ⟨[.field "statements", .index 1], .ruleApplication "semantic" index "ClassDeclaration"
        "renaming 'members' to 'body' collides with an existing entry"⟩
    reversed.name = normalize.name ∧ reversed.rules.Perm normalize.rules ∧
      Phase.RulesApart normalize.rules ∧ normalize.apply embodiedClass = refusal 3 ∧
      ∃ index, reversed.apply embodiedClass = refusal index := by
  intro reversed refusal
  have hperm : reversed.rules.Perm normalize.rules := List.reverse_perm _
  have hrefused : normalize.apply embodiedClass = refusal 3 := rfl
  refine ⟨rfl, hperm, rulesApart_normalize, hrefused, ?_⟩
  rcases Phase.apply_perm normalize reversed rfl hperm rulesApart_normalize embodiedClass with
    ⟨result, hresult, -⟩ | ⟨path, i, j, rule, message, -, -, hfailure, hother⟩
  · rw [hrefused] at hresult
    cases hresult
  · obtain ⟨hpath, hcause⟩ := Failure.mk.inj (Except.error.inj (hfailure.symm.trans hrefused))
    obtain ⟨hname, -, hrule, hmessage⟩ := Cause.ruleApplication.inj hcause
    exact ⟨j, by rw [hother, hpath, hname, hrule, hmessage]⟩

end Compiler

end CanonicalTree
