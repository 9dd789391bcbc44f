import CanonicalTree.Proofs.Rewriting
import CanonicalTree.Proofs.Sameness

/-!
# One pass over a tree

A phase goes over a tree once, from the bottom up, and what it does to a node may depend on what has
become of the children. Some phases need less: they look at each node by itself, at most at the
names and forms of its slots, and leave the children where they are. Such a phase is described by
the nodes that it refuses and by what it makes of all others (`Phase.Nodewise`). It succeeds if and
only if no node of the tree is refused, and then the nodes of the result are, one by one, what it
makes of the nodes of the tree.

A tree that no rule matches anywhere is settled: the phase leaves it as it is.
-/

namespace CanonicalTree

/-! ## The forms of slots -/

/-- How many nodes a sequence holds; a single child is not counted. -/
def Slot.form : Slot → Option Nat
  | .single _ => none
  | .sequence nodes => some nodes.length

/-- The names and forms of slots, without the nodes in them. -/
def Slots.forms (slots : Fields Slot) : Fields (Option Nat) :=
  slots.map fun entry => (entry.1, entry.2.form)

theorem Slots.keys_forms (slots : Fields Slot) : Fields.keys (forms slots) = Fields.keys slots := by
  simp [forms, Fields.keys]

section Related

variable {R : Node → Node → Prop}

theorem Slot.Related.form_eq {slot other : Slot} (h : slot.Related R other) :
    other.form = slot.form := by
  match slot, other with
  | .single _, .single _ => rfl
  | .sequence _, .sequence _ => exact congrArg some h.length_eq.symm
  | .single _, .sequence _ => exact h.elim
  | .sequence _, .single _ => exact h.elim

/-- Related slots have the same names and forms, in the same order. -/
theorem Slots.Related.forms_eq {slots others : Fields Slot} (h : Slots.Related R slots others) :
    Slots.forms others = Slots.forms slots := by
  induction h with
  | nil => rfl
  | cons hentry _ ih =>
    unfold Slots.forms at ih ⊢
    rw [List.map_cons, List.map_cons, ih, hentry.1, hentry.2.form_eq]

/-- If every node in a slot has a related one, so has the slot. -/
theorem Slot.exists_related {slot : Slot} (h : ∀ node ∈ slot.nodes, ∃ other, R node other) :
    ∃ other, slot.Related R other := by
  cases slot with
  | single node =>
    obtain ⟨other, hother⟩ := h node (List.mem_singleton.mpr rfl)
    exact ⟨.single other, hother⟩
  | sequence nodes =>
    obtain ⟨others, hothers⟩ := exists_forall₂_iff.mpr h
    exact ⟨.sequence others, hothers⟩

/-- If every node in the slots is related to some node, the slots are related to some slots. -/
theorem Slots.exists_related {slots : Fields Slot}
    (h : ∀ entry ∈ slots, ∀ node ∈ entry.2.nodes, ∃ other, R node other) :
    ∃ others, Slots.Related R slots others := by
  induction slots with
  | nil => exact ⟨[], .nil⟩
  | cons entry rest ih =>
    obtain ⟨hentry, hrest⟩ := List.forall_mem_cons.mp h
    obtain ⟨slot, hslot⟩ := Slot.exists_related hentry
    obtain ⟨others, hothers⟩ := ih hrest
    exact ⟨(entry.1, slot) :: others, .cons ⟨rfl, hslot⟩ hothers⟩

end Related

/-! ## Patterns that look at one node -/

/-- A pattern that does not look at the slots. -/
theorem Pattern.captures?_flat (kind : KindClause) (token : TokenClause)
    (properties : List (String × PropertyClause)) (node : Node) :
    ({ kind, token, properties } : Pattern).captures? node =
      if kind.accepts node.kind then
        (token.match? node.token []).bind (Pattern.matchProperties? properties node)
      else none := by
  simp [Pattern.captures?, Pattern.match?, Pattern.matchSlots?, Captures.keepAs]

/-- A pattern that asks for a kind only keeps nothing. -/
theorem Pattern.captures?_only (kind : String) (node : Node) :
    ({ kind := .only kind } : Pattern).captures? node =
      if kind = node.kind then some [] else none := by
  simp [Pattern.captures?_flat, KindClause.accepts, TokenClause.match?, Pattern.matchProperties?]

namespace Phase

variable {phase : Phase}

/-! ## Passes that succeed -/

theorem transformNodes_of_forall₂ {nodes results : List Node}
    (h : List.Forall₂ phase.Becomes nodes results) (i : Nat) :
    phase.transformNodes i nodes = .ok results := by
  induction h generalizing i with
  | nil => rw [transformNodes]
  | cons hnode _ ih =>
    rw [transformNodes, hnode, ih]
    rfl

theorem transformSlot_of_related {slot result : Slot} (h : slot.Related phase.Becomes result) :
    phase.transformSlot slot = .ok result := by
  match slot, result with
  | .single node, .single other =>
    have hnode : phase.transform node = .ok other := h
    rw [transformSlot, hnode]
    rfl
  | .sequence nodes, .sequence others =>
    rw [transformSlot, transformNodes_of_forall₂ h]
    rfl
  | .single _, .sequence _ => exact h.elim
  | .sequence _, .single _ => exact h.elim

/-- Slots become what their nodes become. -/
theorem transformSlots_of_related {slots results : Fields Slot}
    (h : Slots.Related phase.Becomes slots results) :
    phase.transformSlots slots = .ok results := by
  induction h with
  | nil => rw [transformSlots]
  | @cons entry other rest others hentry _ ih =>
    obtain ⟨name, slot⟩ := entry
    obtain ⟨same, result⟩ := other
    obtain ⟨rfl, hslot⟩ := hentry
    rw [transformSlots, transformSlot_of_related hslot, ih]
    rfl

/-- Once the children have been transformed, the outcome for a node is that of replacing it. -/
theorem transform_of_related {node : Node} {slots : Fields Slot}
    (h : Slots.Related phase.Becomes node.slots slots) :
    phase.transform node = phase.replace { node with slots } := by
  obtain ⟨kind, token, position, properties, old⟩ := node
  rw [transform, transformSlots_of_related h]
  rfl

/-! ## The first rule that matches -/

theorem firstMatch?_eq_none {node : Node} {rules : List Rule} (i : Nat)
    (h : ∀ rule ∈ rules, rule.captures? node = none) : firstMatch? node i rules = none := by
  induction rules generalizing i with
  | nil => rfl
  | cons rule rest ih =>
    obtain ⟨hrule, hrest⟩ := List.forall_mem_cons.mp h
    rw [firstMatch?, hrule]
    exact ih (i + 1) hrest

/-- A node that no rule matches is left alone. -/
theorem replace_of_unmatched {node : Node} (h : ∀ rule ∈ phase.rules, rule.captures? node = none) :
    phase.replace node = .ok node := by
  rw [replace, firstMatch?_eq_none 0 h]

/-- A node is replaced by what the first rule that matches makes of it. -/
theorem replace_of_run_ok {node result : Node} {index : Nat} {rule : Rule} {captures : Captures}
    (h : firstMatch? node 0 phase.rules = some (index, rule, captures))
    (hrun : rule.action.run node captures = .ok result) : phase.replace node = .ok result := by
  simp only [replace, h, hrun]

theorem replace_of_run_error {node : Node} {index : Nat} {rule : Rule} {captures : Captures}
    {fault : BuildFault}
    (h : firstMatch? node 0 phase.rules = some (index, rule, captures))
    (hrun : rule.action.run node captures = .error fault) :
    phase.replace node =
      .error (.here (.ruleApplication phase.name index rule.name fault.message)) := by
  simp only [replace, h, hrun]

/-- Rules made from the entries of a table, each for its own kind, act as a look-up of the kind. -/
theorem firstMatch?_table (make : String → String → Rule)
    (hmake : ∀ kind value, (make kind value).pattern = { kind := .only kind })
    (table : Fields String) (rest : List Rule) (node : Node) (i : Nat) :
    ∃ index, firstMatch? node i (table.map (fun entry => make entry.1 entry.2) ++ rest) =
      match Fields.get? table node.kind with
      | some value => some (index, make node.kind value, [])
      | none => firstMatch? node index rest := by
  induction table generalizing i with
  | nil => exact ⟨i, rfl⟩
  | cons entry others ih =>
    obtain ⟨kind, value⟩ := entry
    rw [List.map_cons, List.cons_append, firstMatch?, Rule.captures?, hmake, Pattern.captures?_only,
      Fields.get?]
    by_cases hkind : kind = node.kind
    · rw [if_pos hkind, if_pos hkind, hkind]
      exact ⟨i, rfl⟩
    · rw [if_neg hkind, if_neg hkind]
      exact ih (i + 1)

/-! ## Settled trees -/

/-- No rule matches any node of the tree. -/
def Settled (phase : Phase) (tree : Node) : Prop :=
  ∀ part ∈ tree.descendants, ∀ rule ∈ phase.rules, rule.captures? part = none

/-- A settled tree is left alone. -/
theorem Settled.transform {tree : Node} (h : phase.Settled tree) :
    phase.transform tree = .ok tree := by
  induction tree using Node.induction_children with
  | step node ih =>
    obtain ⟨hnode, hchildren⟩ := Node.forall_descendants.mp h
    have hslots : Slots.Related phase.Becomes node.slots node.slots := by
      refine List.forall₂_same.mpr fun entry hentry => ⟨rfl, ?_⟩
      refine Slot.Related.refl fun child hchild => ?_
      have hmem := Node.mem_children.mpr ⟨entry, hentry, hchild⟩
      exact ih child hmem (hchildren child hmem)
    rw [transform_of_related hslots]
    cases node
    exact replace_of_unmatched hnode

/-- Leaving the tree alone when there are no rules is what the pass would come to. -/
theorem apply_eq_transform (phase : Phase) (tree : Node) :
    phase.apply tree = phase.transform tree := by
  unfold apply
  split
  · next hempty =>
    have hsettled : phase.Settled tree := by
      simp [Settled, List.isEmpty_iff.mp hempty]
    exact hsettled.transform.symm
  · rfl

theorem becomes_eq (phase : Phase) :
    phase.Becomes = fun node result => phase.apply node = .ok result := by
  funext node result
  rw [apply_eq_transform, Becomes]

/-- Applying a phase to a settled tree changes nothing. -/
theorem Settled.apply {tree : Node} (h : phase.Settled tree) : phase.apply tree = .ok tree := by
  rw [apply_eq_transform, h.transform]

/-! ## Phases that work node by node -/

/-- The phase refuses the nodes with the property `Bad` and turns any other node into its `image`.
It leaves the children of a node where they are, and whether it refuses a node can be told without
looking at them. -/
structure Nodewise (phase : Phase) (Bad : Node → Prop) (image : Node → Node) : Prop where
  refuses : ∀ node, Bad node → ∃ failure, phase.replace node = .error failure
  replaces : ∀ node, ¬ Bad node → phase.replace node = .ok (image node)
  children : ∀ node, (image node).children = node.children
  forms : ∀ (node : Node) (slots : Fields Slot), Slots.forms slots = Slots.forms node.slots →
    (Bad { node with slots } ↔ Bad node)

namespace Nodewise

variable {Bad : Node → Prop} {image : Node → Node}

/-- A node that is not refused becomes its image. -/
theorem replace_eq_ok (h : phase.Nodewise Bad image) {node result : Node}
    (hreplace : phase.replace node = .ok result) : ¬ Bad node ∧ result = image node := by
  by_cases hbad : Bad node
  · obtain ⟨failure, hfailure⟩ := h.refuses node hbad
    rw [hfailure] at hreplace
    cases hreplace
  · rw [h.replaces node hbad] at hreplace
    cases hreplace
    exact ⟨hbad, rfl⟩

/-- The pass succeeds if and only if no node of the tree is refused. -/
theorem exists_transform_iff (h : phase.Nodewise Bad image) (tree : Node) :
    (∃ result, phase.transform tree = .ok result) ↔ ∀ part ∈ tree.descendants, ¬ Bad part := by
  induction tree using Node.induction_children with
  | step node ih =>
    rw [Node.forall_descendants]
    constructor
    · rintro ⟨result, hresult⟩
      obtain ⟨slots, hslots, hreplace⟩ := transform_eq_ok hresult
      -- the node was tested with its new children, so `forms` carries the verdict back
      refine ⟨?_, fun child hchild => (ih child hchild).mp ?_⟩
      · rw [← h.forms node slots hslots.forms_eq]
        exact (h.replace_eq_ok hreplace).1
      · obtain ⟨other, -, hbecomes⟩ := exists_related_of_mem hslots.forall₂_nodes.flip child hchild
        exact ⟨other, hbecomes⟩
    · rintro ⟨hnode, hchildren⟩
      obtain ⟨slots, hslots⟩ : ∃ slots, Slots.Related phase.Becomes node.slots slots := by
        refine Slots.exists_related fun entry hentry child hchild => ?_
        have hmem := Node.mem_children.mpr ⟨entry, hentry, hchild⟩
        exact (ih child hmem).mpr (hchildren child hmem)
      rw [← h.forms node slots hslots.forms_eq] at hnode
      exact ⟨_, (transform_of_related hslots).trans (h.replaces _ hnode)⟩

/-- The nodes of the result are, in document order, the images of the nodes of the tree, taken after
their children have been transformed. -/
theorem forall₂_descendants (h : phase.Nodewise Bad image) {tree result : Node}
    (htransform : phase.transform tree = .ok result) :
    List.Forall₂ (fun node other => ∃ slots, Slots.forms slots = Slots.forms node.slots ∧
      other = image { node with slots }) tree.descendants result.descendants := by
  induction tree using Node.induction_children generalizing result with
  | step node ih =>
    obtain ⟨slots, hslots, hreplace⟩ := transform_eq_ok htransform
    obtain ⟨-, rfl⟩ := h.replace_eq_ok hreplace
    rw [Node.descendants_eq node, Node.descendants_eq (image _), h.children]
    refine .cons ⟨slots, hslots.forms_eq, rfl⟩ ?_
    have hchildren := (List.forall₂_and_left _ _).mpr ⟨ih, hslots.forall₂_nodes⟩
    exact List.rel_flatMap hchildren fun child other hchild => hchild.1 hchild.2

/-- If no rule matches an image, the result of a pass is settled. -/
theorem settled (h : phase.Nodewise Bad image)
    (hunmatched : ∀ node, ∀ rule ∈ phase.rules, rule.captures? (image node) = none)
    {tree result : Node} (htransform : phase.transform tree = .ok result) :
    phase.Settled result := by
  intro part hpart
  obtain ⟨node, -, slots, -, rfl⟩ :=
    exists_related_of_mem (h.forall₂_descendants htransform) part hpart
  exact hunmatched _

end Nodewise

end Phase

end CanonicalTree
