import CanonicalTree.Tree.Traversal
import Mathlib.Data.List.Forall2

/-!
# Trees through their children

The functions on trees recurse over nodes, slots and sequences together. Here they are brought to
one form: a tree is a node with its children, and what holds of a node as soon as it holds of its
children holds of every tree (`Node.induction_children`).

`Slots.Related` says that two lists of slots have the same names and forms and hold nodes that are
related one by one. It is how a step on a whole tree speaks of what it does to the children.
-/

namespace CanonicalTree

namespace Node

/-- The children of a node in document order. -/
def children (node : Node) : List Node :=
  node.slots.flatMap fun entry => entry.2.nodes

/-- The children of a node are the nodes in its slots. -/
theorem mem_children {node child : Node} :
    child ∈ node.children ↔ ∃ entry ∈ node.slots, child ∈ entry.2.nodes := by
  simp [children]

/-- What passes from the children of a node to the node holds of every node. -/
theorem induction_children {motive : Node → Prop}
    (step : ∀ node : Node, (∀ child ∈ node.children, motive child) → motive node) (node : Node) :
    motive node := by
  -- one motive for each type of the nested recursion, all saying it of the nodes inside
  refine @Node.rec motive (fun slot => ∀ child ∈ slot.nodes, motive child)
    (fun slots => ∀ child ∈ slots.flatMap (fun entry => entry.2.nodes), motive child)
    (fun nodes => ∀ child ∈ nodes, motive child)
    (fun entry => ∀ child ∈ entry.2.nodes, motive child) ?_ ?_ ?_ ?_ ?_ ?_ ?_ ?_ node
  · intro kind token position properties slots hslots
    exact step ⟨kind, token, position, properties, slots⟩ hslots
  · intro node hnode child hchild
    rw [List.mem_singleton.mp hchild]
    exact hnode
  · intro nodes hnodes
    exact hnodes
  · simp
  · intro entry rest hentry hrest child hchild
    rw [List.flatMap_cons] at hchild
    rcases List.mem_append.mp hchild with hchild | hchild
    · exact hentry child hchild
    · exact hrest child hchild
  · simp
  · intro node rest hnode hrest child hchild
    rcases List.mem_cons.mp hchild with rfl | hchild
    · exact hnode
    · exact hrest child hchild
  · intro name slot hslot
    exact hslot

/-! ## Descendants -/

theorem descendantsOfNodes_eq (nodes : List Node) :
    descendantsOfNodes nodes = nodes.flatMap descendants := by
  induction nodes with
  | nil => simp [descendantsOfNodes]
  | cons node rest ih => simp [descendantsOfNodes, ih]

/-- The descendants in slots are those of the nodes in them, in order. -/
theorem descendantsOfSlots_eq (slots : List (String × Slot)) :
    descendantsOfSlots slots =
      (slots.flatMap fun entry => entry.2.nodes).flatMap descendants := by
  induction slots with
  | nil => simp [descendantsOfSlots]
  | cons entry rest ih =>
    obtain ⟨name, slot⟩ := entry
    cases slot with
    | single node => simp [descendantsOfSlots, Slot.descendants, Slot.nodes, ih]
    | sequence nodes =>
      simp [descendantsOfSlots, Slot.descendants, Slot.nodes, ih, descendantsOfNodes_eq]

/-- The nodes of a tree are its root and the nodes of its children. -/
theorem descendants_eq (node : Node) :
    node.descendants = node :: node.children.flatMap descendants := by
  obtain ⟨kind, token, position, properties, slots⟩ := node
  rw [descendants, descendantsOfSlots_eq]
  rfl

/-- A descendant is the node itself or a descendant of a child. -/
theorem mem_descendants {node part : Node} :
    part ∈ node.descendants ↔ part = node ∨ ∃ child ∈ node.children, part ∈ child.descendants := by
  rw [descendants_eq, List.mem_cons, List.mem_flatMap]

theorem self_mem_descendants (node : Node) : node ∈ node.descendants :=
  mem_descendants.mpr (Or.inl rfl)

theorem mem_descendants_of_mem_children {node child : Node} (h : child ∈ node.children) :
    child ∈ node.descendants :=
  mem_descendants.mpr (Or.inr ⟨child, h, child.self_mem_descendants⟩)

/-- A part of a part is a part. -/
theorem mem_descendants_trans {node part inner : Node} (hpart : part ∈ node.descendants)
    (hinner : inner ∈ part.descendants) : inner ∈ node.descendants := by
  induction node using induction_children with
  | step node ih =>
    rcases mem_descendants.mp hpart with rfl | ⟨child, hchild, hpart⟩
    · exact hinner
    · exact mem_descendants.mpr (Or.inr ⟨child, hchild, ih child hchild hpart⟩)

/-- A property of all nodes of a tree is one of its root and of all nodes of its children. -/
theorem forall_descendants {P : Node → Prop} {node : Node} :
    (∀ part ∈ node.descendants, P part) ↔
      P node ∧ ∀ child ∈ node.children, ∀ part ∈ child.descendants, P part := by
  constructor
  · intro h
    refine ⟨h node node.self_mem_descendants, fun child hchild part hpart => ?_⟩
    exact h part (mem_descendants.mpr (Or.inr ⟨child, hchild, hpart⟩))
  · rintro ⟨hnode, hchildren⟩ part hpart
    rcases mem_descendants.mp hpart with rfl | ⟨child, hchild, hpart⟩
    · exact hnode
    · exact hchildren child hchild part hpart

end Node

/-! ## Related slots -/

/-- The slots have the same form, and their nodes are related one by one. -/
def Slot.Related (R : Node → Node → Prop) : Slot → Slot → Prop
  | .single node, .single other => R node other
  | .sequence nodes, .sequence others => List.Forall₂ R nodes others
  | _, _ => False

/-- The slots have the same names in the same order, and are related one by one. -/
def Slots.Related (R : Node → Node → Prop) : Fields Slot → Fields Slot → Prop :=
  List.Forall₂ fun entry other => entry.1 = other.1 ∧ entry.2.Related R other.2

/-- Related slots hold related nodes. -/
theorem Slot.Related.forall₂_nodes {R : Node → Node → Prop} {slot other : Slot}
    (h : slot.Related R other) : List.Forall₂ R slot.nodes other.nodes := by
  cases slot with
  | single node =>
    cases other with
    | single other => exact .cons h .nil
    | sequence others => exact h.elim
  | sequence nodes =>
    cases other with
    | single other => exact h.elim
    | sequence others => exact h

/-- Related slots hold related nodes, one for one. -/
theorem Slots.Related.forall₂_nodes {R : Node → Node → Prop} {slots others : Fields Slot}
    (h : Slots.Related R slots others) :
    List.Forall₂ R (slots.flatMap fun entry => entry.2.nodes)
      (others.flatMap fun entry => entry.2.nodes) := by
  induction h with
  | nil => exact .nil
  | cons hentry _ ih =>
    rw [List.flatMap_cons, List.flatMap_cons]
    exact List.rel_append hentry.2.forall₂_nodes ih

/-- Each of the second nodes is related to one of the first. -/
theorem exists_related_of_mem {R : Node → Node → Prop} {nodes others : List Node}
    (h : List.Forall₂ R nodes others) :
    ∀ other ∈ others, ∃ node ∈ nodes, R node other := by
  induction h with
  | nil => simp
  | cons hfirst _ ih =>
    refine List.forall_mem_cons.mpr ⟨⟨_, List.mem_cons_self, hfirst⟩, fun other hother => ?_⟩
    obtain ⟨node, hnode, hrelated⟩ := ih other hother
    exact ⟨node, List.mem_cons_of_mem _ hnode, hrelated⟩

end CanonicalTree
