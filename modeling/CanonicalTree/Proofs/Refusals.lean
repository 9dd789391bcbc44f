import CanonicalTree.Proofs.Passes
import CanonicalTree.Proofs.Walk

/-!
# Where a phase fails

A phase works from the bottom up and stops at the first rule that cannot be carried out. A node is
to blame if the phase succeeds on its children and the first rule that matches the node with its
new children fails on it. Below such a node there is no other, so the first one that the phase comes
across, children before their parent, is also the first in document order. The failure names the
rule and leads to this node in the tree that the phase was given (`apply_outcome`).
-/

namespace CanonicalTree

namespace Phase

variable {phase : Phase} {node : Node} {rules : List Rule} {rule : Rule} {captures : Captures}

/-! ## The rule that fires -/

/-- The rule at this index matches the node, and no rule before it does. -/
structure Fires (rules : List Rule) (node : Node) (index : Nat) (rule : Rule)
    (captures : Captures) : Prop where
  getElem?_eq : rules[index]? = some rule
  captures_eq : rule.captures? node = some captures
  earlier : ∀ (i : Nat) (other : Rule), i < index → rules[i]? = some other →
    other.captures? node = none

theorem fires_cons_zero {first : Rule} :
    Fires (first :: rules) node 0 rule captures ↔
      first = rule ∧ first.captures? node = some captures := by
  constructor
  · rintro ⟨hfirst, hcaptures, -⟩
    cases hfirst
    exact ⟨rfl, hcaptures⟩
  · rintro ⟨rfl, hcaptures⟩
    exact ⟨rfl, hcaptures, nofun⟩

/-- A later rule fires if the first one does not match and it fires among the others. -/
theorem fires_cons_succ {first : Rule} {index : Nat} :
    Fires (first :: rules) node (index + 1) rule captures ↔
      first.captures? node = none ∧ Fires rules node index rule captures := by
  constructor
  · rintro ⟨hrule, hcaptures, hearlier⟩
    have hfirst := hearlier 0 first (Nat.succ_pos index) rfl
    refine ⟨hfirst, hrule, hcaptures, fun i other hi hother => ?_⟩
    exact hearlier (i + 1) other (Nat.succ_lt_succ hi) hother
  · rintro ⟨hfirst, hrule, hcaptures, hearlier⟩
    refine ⟨hrule, hcaptures, fun i other hi hother => ?_⟩
    cases i with
    | zero =>
      cases hother
      exact hfirst
    | succ i => exact hearlier i other (Nat.lt_of_succ_lt_succ hi) hother

/-- The rule that is found is the one that fires, with its index counted on from `i`. -/
theorem firstMatch?_eq_some_iff {i found : Nat} :
    firstMatch? node i rules = some (found, rule, captures) ↔
      ∃ index, found = i + index ∧ Fires rules node index rule captures := by
  induction rules generalizing i with
  | nil =>
    constructor
    · rintro ⟨⟩
    · rintro ⟨index, -, hfires⟩
      cases hfires.getElem?_eq
  | cons first rest ih =>
    rw [firstMatch?]
    cases hfirst : first.captures? node with
    | some kept =>
      constructor
      · rintro ⟨⟩
        exact ⟨0, rfl, fires_cons_zero.mpr ⟨rfl, hfirst⟩⟩
      · rintro ⟨index, rfl, hfires⟩
        cases index with
        | zero =>
          obtain ⟨rfl, hcaptures⟩ := fires_cons_zero.mp hfires
          rw [hfirst] at hcaptures
          cases hcaptures
          rfl
        | succ index =>
          rw [(fires_cons_succ.mp hfires).1] at hfirst
          cases hfirst
    | none =>
      simp only [ih]
      constructor
      · rintro ⟨index, rfl, hfires⟩
        exact ⟨index + 1, by omega, fires_cons_succ.mpr ⟨hfirst, hfires⟩⟩
      · rintro ⟨index, rfl, hfires⟩
        cases index with
        | zero =>
          rw [(fires_cons_zero.mp hfires).2] at hfirst
          cases hfirst
        | succ index => exact ⟨index, by omega, (fires_cons_succ.mp hfires).2⟩

/-- A node cannot be replaced exactly if the rule that fires on it fails. -/
theorem replace_eq_error_iff {failure : Failure} :
    phase.replace node = .error failure ↔
      ∃ index rule captures fault, Fires phase.rules node index rule captures ∧
        rule.action.run node captures = .error fault ∧
        failure = .here (.ruleApplication phase.name index rule.name fault.message) := by
  constructor
  · intro h
    unfold replace at h
    split at h
    · cases h
    · next found rule captures hmatch =>
      obtain ⟨index, hfound, hfires⟩ := firstMatch?_eq_some_iff.mp hmatch
      rw [Nat.zero_add] at hfound
      split at h
      · cases h
      · next fault hrun =>
        cases h
        exact ⟨found, rule, captures, fault, hfound ▸ hfires, hrun, rfl⟩
  · rintro ⟨index, rule, captures, fault, hfires, hrun, rfl⟩
    have hmatch := firstMatch?_eq_some_iff.mpr ⟨index, (Nat.zero_add index).symm, hfires⟩
    exact replace_of_run_error hmatch hrun

/-! ## Nodes on which a phase fails -/

/-- The phase succeeds on all children of the node, and the rule that fires on the node with its new
children fails. -/
def FailsBy (phase : Phase) (node : Node) (index : Nat) (rule : Rule) (fault : BuildFault) : Prop :=
  ∃ slots captures, Slots.Related (fun child result => phase.apply child = .ok result) node.slots
      slots ∧
    Fires phase.rules { node with slots } index rule captures ∧
    rule.action.run { node with slots } captures = .error fault

/-- The phase fails on this node, and not already on its children. -/
def FailsAt (phase : Phase) (node : Node) : Prop :=
  ∃ index rule fault, phase.FailsBy node index rule fault

/-- What a failure says about a node on which the phase fails. -/
def Blames (phase : Phase) (node : Node) (cause : Cause) : Prop :=
  ∃ index rule fault, phase.FailsBy node index rule fault ∧
    cause = .ruleApplication phase.name index rule.name fault.message

/-- A node is to blame if it is refused once the phase has been through its children. -/
theorem blames_iff {cause : Cause} :
    phase.Blames node cause ↔ ∃ slots, Slots.Related phase.Becomes node.slots slots ∧
      phase.replace { node with slots } = .error (.here cause) := by
  unfold Blames FailsBy
  simp only [becomes_eq, replace_eq_error_iff]
  constructor
  · rintro ⟨index, rule, fault, ⟨slots, captures, hslots, hfires, hrun⟩, rfl⟩
    exact ⟨slots, hslots, index, rule, captures, fault, hfires, hrun, rfl⟩
  · rintro ⟨slots, hslots, index, rule, captures, fault, hfires, hrun, heq⟩
    exact ⟨index, rule, fault, ⟨slots, captures, hslots, hfires, hrun⟩, congrArg Failure.cause heq⟩

/-- A node is to blame for something exactly if the phase fails on it. -/
theorem exists_blames_iff : (∃ cause, phase.Blames node cause) ↔ phase.FailsAt node := by
  constructor
  · rintro ⟨_, index, rule, fault, hfails, -⟩
    exact ⟨index, rule, fault, hfails⟩
  · rintro ⟨index, rule, fault, hfails⟩
    exact ⟨_, index, rule, fault, hfails, rfl⟩

/-- A node below which the phase fails is not to blame itself. -/
theorem not_blames_of_transformSlots_error {failure : Failure}
    (h : phase.transformSlots node.slots = .error failure) (cause : Cause) :
    ¬ phase.Blames node cause := by
  rw [blames_iff]
  rintro ⟨slots, hslots, -⟩
  rw [transformSlots_of_related hslots] at h
  cases h

/-- Once the children have been transformed, the node is to blame exactly if it cannot be
replaced. -/
theorem blames_iff_of_transformSlots {slots : Fields Slot} {cause : Cause}
    (h : phase.transformSlots node.slots = .ok slots) :
    phase.Blames node cause ↔ phase.replace { node with slots } = .error (.here cause) := by
  rw [blames_iff]
  constructor
  · rintro ⟨others, hothers, hreplace⟩
    rw [transformSlots_of_related hothers] at h
    cases h
    exact hreplace
  · intro hreplace
    exact ⟨slots, transformSlots_related h, hreplace⟩

/-! ## Trees -/

/-- The phase stops at the first node of the tree that is to blame. -/
def StopsFirst (phase : Phase) (tree : Node) : Prop :=
  FirstRefusal phase.Blames tree.parts (phase.transform tree)

/-- In a sequence the phase stops at the first node that is to blame. -/
theorem transformNodes_stops {nodes : List Node} {i : Nat}
    (h : ∀ node ∈ nodes, phase.StopsFirst node) :
    FirstRefusal phase.Blames (Node.walkNodes (fun node => [node]) (fun _ => []) i nodes)
      (phase.transformNodes i nodes) := by
  induction nodes generalizing i with
  | nil => exact .nothing
  | cons node rest ih =>
    obtain ⟨hnode, hrest⟩ := List.forall_mem_cons.mp h
    rw [transformNodes, Node.walkNodes]
    refine (FirstRefusal.within (.index i) hnode).bind fun _ _ => ?_
    exact (ih hrest).map fun _ => ⟨_, rfl⟩

theorem transformSlot_stops {slot : Slot} (h : ∀ node ∈ slot.nodes, phase.StopsFirst node) :
    FirstRefusal phase.Blames (slot.walk (fun node => [node]) (fun _ => []))
      (phase.transformSlot slot) := by
  cases slot with
  | single node =>
    rw [transformSlot, Slot.walk]
    exact FirstRefusal.map (h node (List.mem_singleton.mpr rfl)) fun _ => ⟨_, rfl⟩
  | sequence nodes =>
    rw [transformSlot, Slot.walk]
    exact (transformNodes_stops h).map fun _ => ⟨_, rfl⟩

theorem transformSlots_stops {slots : Fields Slot}
    (h : ∀ entry ∈ slots, ∀ node ∈ entry.2.nodes, phase.StopsFirst node) :
    FirstRefusal phase.Blames (Node.walkSlots (fun node => [node]) (fun _ => []) slots)
      (phase.transformSlots slots) := by
  induction slots with
  | nil => exact .nothing
  | cons entry rest ih =>
    obtain ⟨name, slot⟩ := entry
    obtain ⟨hslot, hrest⟩ := List.forall_mem_cons.mp h
    rw [transformSlots, Node.walkSlots]
    refine ((transformSlot_stops hslot).within (.field name)).bind fun _ _ => ?_
    exact (ih hrest).map fun _ => ⟨_, rfl⟩

/-- In every tree the phase stops at the first node that is to blame. -/
theorem stopsFirst (phase : Phase) (tree : Node) : phase.StopsFirst tree := by
  induction tree using Node.induction_children with
  | step tree ih =>
    have hslots : FirstRefusal phase.Blames
        (Node.walkSlots (fun node => [node]) (fun _ => []) tree.slots)
        (phase.transformSlots tree.slots) :=
      transformSlots_stops fun entry hentry child hchild =>
        ih child (Node.mem_children.mpr ⟨entry, hentry, hchild⟩)
    have htransform : phase.transform tree =
        phase.transformSlots tree.slots >>= fun slots => phase.replace { tree with slots } := by
      cases tree
      rw [transform]
    unfold StopsFirst
    rw [htransform, Node.parts_eq]
    cases houtcome : phase.transformSlots tree.slots with
    | error failure =>
      -- the node comes before its children, but it is not to blame if one of them fails
      rw [houtcome] at hslots
      obtain ⟨before, node, after, hsplit, hbefore, hnode⟩ := hslots
      rw [hsplit]
      refine ⟨(Path.root, tree) :: before, node, after, rfl, ?_, hnode⟩
      exact List.forall_mem_cons.mpr ⟨not_blames_of_transformSlots_error houtcome, hbefore⟩
    | ok slots =>
      rw [houtcome] at hslots
      have hblames : ∀ cause, phase.Blames tree cause ↔
          phase.replace { tree with slots } = .error (.here cause) :=
        fun cause => blames_iff_of_transformSlots houtcome
      show FirstRefusal _ _ (phase.replace { tree with slots })
      cases hreplace : phase.replace { tree with slots } with
      | ok result =>
        refine List.forall_mem_cons.mpr ⟨fun cause => ?_, hslots⟩
        rw [hblames, hreplace]
        rintro ⟨⟩
      | error failure =>
        obtain ⟨_, _, _, _, -, -, rfl⟩ := replace_eq_error_iff.mp hreplace
        exact ⟨[], tree, _, rfl, nofun, (hblames _).mpr hreplace⟩

/-- A phase fails if and only if there is a node on which it fails. The failure then names the rule
that fired on the first of these nodes in document order, with what went wrong, and its path leads
to this node. -/
theorem apply_outcome (phase : Phase) (tree : Node) :
    ((∃ failure, phase.apply tree = .error failure) ↔
      ∃ part ∈ tree.descendants, phase.FailsAt part) ∧
    ∀ failure, phase.apply tree = .error failure →
      ∃ before node after index rule fault,
        tree.parts = before ++ (failure.path, node) :: after ∧
        (∀ earlier ∈ before, ¬ phase.FailsAt earlier.2) ∧
        phase.FailsBy node index rule fault ∧
        failure.cause = .ruleApplication phase.name index rule.name fault.message ∧
        (tree.WellFormed → tree.follow failure.path = some node) := by
  have hstops := stopsFirst phase tree
  unfold StopsFirst at hstops
  simp only [apply_eq_transform, ← exists_blames_iff, not_exists]
  refine ⟨⟨?_, ?_⟩, ?_⟩
  · rintro ⟨failure, hfailure⟩
    rw [hfailure] at hstops
    obtain ⟨before, node, after, hsplit, -, hnode⟩ := hstops
    have hmem : (failure.path, node) ∈ tree.parts := hsplit ▸ List.mem_append_cons_self
    exact ⟨node, Node.exists_mem_parts.mp ⟨_, hmem⟩, _, hnode⟩
  · rintro ⟨part, hpart, cause, hblames⟩
    cases houtcome : phase.transform tree with
    | error failure => exact ⟨failure, rfl⟩
    | ok result =>
      rw [houtcome] at hstops
      obtain ⟨path, hmem⟩ := Node.exists_mem_parts.mpr hpart
      exact absurd hblames (hstops _ hmem cause)
  · intro failure hfailure
    rw [hfailure] at hstops
    obtain ⟨before, node, after, hsplit, hbefore, index, rule, fault, hfails, hcause⟩ := hstops
    refine ⟨before, node, after, index, rule, fault, hsplit, hbefore, hfails, hcause, ?_⟩
    intro hwell
    exact Node.follow_of_mem_parts hwell (hsplit ▸ List.mem_append_cons_self)

/-- Quotations give way to what they hold, names must have a token, and wrappers always fail. -/
def labelling : Phase where
  name := "labels"
  rules :=
    [{ name := "unquote"
       pattern := { kind := .only "quote", slots := [("inner", .any (some "it"))] }
       action := .replace "it" },
      { name := "label"
        pattern := { kind := .only "name" }
        action := .edit { token := .set .matchedToken } },
      { name := "unwrap", pattern := { kind := .only "wrap" }, action := .replace "it" }]

/-- Two names without a token, the first of them in a wrapper. -/
def unlabelled : Node :=
  { kind := "block"
    slots :=
      [("head", .single
        { kind := "quote", slots := [("inner", .single { kind := "name", token := some "a" })] }),
       ("body", .sequence
        [{ kind := "wrap", slots := [("inner", .single { kind := "name" })] },
         { kind := "name" }])] }

/-- The name in the wrapper is reported: the wrapper, which comes first, is never tried. -/
theorem apply_outcome_unlabelled :
    let failure : Failure :=
      ⟨[.field "body", .index 0, .field "inner"],
        .ruleApplication "labels" 1 "label" "matched node has no token"⟩
    labelling.apply unlabelled = .error failure ∧
      (∃ part ∈ unlabelled.descendants, labelling.FailsAt part) ∧
      ∃ node index rule fault, unlabelled.follow failure.path = some node ∧
        labelling.FailsBy node index rule fault ∧
        failure.cause = .ruleApplication "labels" index rule.name fault.message := by
  intro failure
  have happly : labelling.apply unlabelled = .error failure := rfl
  have hwell : unlabelled.WellFormed := by
    simp [unlabelled, Node.WellFormed, Node.WellFormedSlots, Slot.WellFormed,
      Node.WellFormedNodes, Fields.Distinct]
  obtain ⟨hiff, hfailure⟩ := apply_outcome labelling unlabelled
  obtain ⟨before, node, after, index, rule, fault, -, -, hfails, hcause, hfollow⟩ :=
    hfailure failure happly
  exact ⟨happly, hiff.mp ⟨failure, happly⟩, node, index, rule, fault, hfollow hwell, hfails, hcause⟩

end Phase

end CanonicalTree
