import CanonicalTree.Proofs.Passes
import CanonicalTree.Proofs.Walk

/-!
# Trees side by side

Two trees of the same shape have the same paths, and under every path one node of each. They are
parallel if these nodes are related, path by path (`Node.Parallel`). A phase that works node by node
and leaves the slots of a node alone makes a tree that is parallel to the old one, where each node
is related to its image (`Phase.Nodewise.parallel`).
-/

namespace CanonicalTree

/-! ## Slots whose nodes are related -/

theorem Slot.Related.imp_of_mem {R S : Node → Node → Prop} {slot other : Slot}
    (h : slot.Related R other)
    (himp : ∀ node ∈ slot.nodes, ∀ other, R node other → S node other) : slot.Related S other := by
  match slot, other with
  | .single node, .single other => exact himp node (List.mem_singleton.mpr rfl) other h
  | .sequence nodes, .sequence others =>
    have hnodes := (List.forall₂_and_left nodes others).mpr ⟨himp, h⟩
    exact hnodes.imp fun node other hnode => hnode.1 other hnode.2
  | .single _, .sequence _ => exact h.elim
  | .sequence _, .single _ => exact h.elim

/-- Related slots stay related if every related pair of nodes in them does. -/
theorem Slots.Related.imp_of_mem {R S : Node → Node → Prop} {slots others : Fields Slot}
    (h : Slots.Related R slots others)
    (himp : ∀ entry ∈ slots, ∀ node ∈ entry.2.nodes, ∀ other, R node other → S node other) :
    Slots.Related S slots others := by
  have hslots := (List.forall₂_and_left slots others).mpr ⟨himp, h⟩
  exact hslots.imp fun entry other hentry =>
    ⟨hentry.2.1, hentry.2.2.imp_of_mem hentry.1⟩

/-! ## Parallel trees -/

/-- Two nodes of different trees stand under the same path and are related. -/
def Aligned (R : Node → Node → Prop) (entry other : Path × Node) : Prop :=
  entry.1 = other.1 ∧ R entry.2 other.2

section Aligned

variable {R : Node → Node → Prop}

/-- Aligned entries stay aligned one step further out. -/
theorem forall₂_map_below (segment : Segment) {entries others : List (Path × Node)}
    (h : List.Forall₂ (Aligned R) entries others) :
    List.Forall₂ (Aligned R) (entries.map (below segment)) (others.map (below segment)) :=
  List.rel_map (fun _ _ haligned => ⟨congrArg (segment :: ·) haligned.1, haligned.2⟩) h

/-- The nodes of two trees are related path by path. -/
def Node.Parallel (R : Node → Node → Prop) (tree other : Node) : Prop :=
  List.Forall₂ (Aligned R) tree.parts other.parts

theorem forall₂_walkNodes {nodes others : List Node}
    (h : List.Forall₂ (Node.Parallel R) nodes others) (i : Nat) :
    List.Forall₂ (Aligned R) (Node.walkNodes (fun node => [node]) (fun _ => []) i nodes)
      (Node.walkNodes (fun node => [node]) (fun _ => []) i others) := by
  induction h generalizing i with
  | nil => exact .nil
  | cons hfirst _ ih =>
    rw [Node.walkNodes, Node.walkNodes]
    exact List.rel_append (forall₂_map_below _ hfirst) (ih (i + 1))

/-- The nodes of parallel slots are aligned path by path. -/
theorem forall₂_walkSlots {slots others : Fields Slot}
    (h : Slots.Related (Node.Parallel R) slots others) :
    List.Forall₂ (Aligned R) (Node.walkSlots (fun node => [node]) (fun _ => []) slots)
      (Node.walkSlots (fun node => [node]) (fun _ => []) others) := by
  induction h with
  | nil => exact .nil
  | @cons entry other _ _ hentry _ ih =>
    obtain ⟨name, slot⟩ := entry
    obtain ⟨same, result⟩ := other
    obtain ⟨rfl, hslot⟩ := hentry
    rw [Node.walkSlots, Node.walkSlots]
    refine List.rel_append (forall₂_map_below _ ?_) ih
    match slot, result with
    | .single _, .single _ => exact hslot
    | .sequence _, .sequence _ => exact forall₂_walkNodes hslot 0
    | .single _, .sequence _ => exact hslot.elim
    | .sequence _, .single _ => exact hslot.elim

/-- Nodes are parallel if they are related themselves and their slots hold parallel nodes. -/
theorem Node.parallel_of_related {node other : Node} (hroot : R node other)
    (hslots : Slots.Related (Parallel R) node.slots other.slots) : node.Parallel R other := by
  unfold Parallel
  rw [parts_eq, parts_eq]
  exact .cons ⟨rfl, hroot⟩ (forall₂_walkSlots hslots)

end Aligned

/-- If the image of a node has its slots, the pass puts under the path of every node the image that
it has with its new children. -/
theorem Phase.Nodewise.parallel {phase : Phase} {Bad : Node → Prop} {image : Node → Node}
    (h : phase.Nodewise Bad image) (hslots : ∀ node, (image node).slots = node.slots)
    {tree result : Node} (htransform : phase.transform tree = .ok result) :
    tree.Parallel (fun node other => ¬ Bad node ∧ ∃ slots, other = image { node with slots })
      result := by
  induction tree using Node.induction_children generalizing result with
  | step node ih =>
    obtain ⟨slots, hrelated, hreplace⟩ := transform_eq_ok htransform
    obtain ⟨hgood, rfl⟩ := h.replace_eq_ok hreplace
    rw [h.forms node slots hrelated.forms_eq] at hgood
    refine Node.parallel_of_related ⟨hgood, slots, rfl⟩ ?_
    rw [hslots]
    refine hrelated.imp_of_mem fun entry hentry child hchild other hbecomes => ?_
    exact ih child (Node.mem_children.mpr ⟨entry, hentry, hchild⟩) hbecomes

end CanonicalTree
