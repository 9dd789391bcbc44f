import CanonicalTree.Path
import CanonicalTree.Tree.Basic

/-!
# Walking a tree

`descendants` lists a node and everything below it in document order: a node before its children,
the children slot by slot. A `Traversal` hands out the same nodes one at a time, and keeps no more
than what is still to be visited. `findKinds` lists the paths of the nodes whose kind is wanted, in
the same order, and `follow` leads a path back to its node.
-/

namespace CanonicalTree

mutual

/-- The node and all nodes below it, in document order. -/
def Node.descendants : Node → List Node
  | ⟨kind, token, position, properties, slots⟩ =>
    ⟨kind, token, position, properties, slots⟩ :: Node.descendantsOfSlots slots

/-- The nodes in these slots and below them. -/
def Node.descendantsOfSlots : List (String × Slot) → List Node
  | [] => []
  | (_, slot) :: rest => Slot.descendants slot ++ Node.descendantsOfSlots rest

/-- The nodes in this slot and below them. -/
def Slot.descendants : Slot → List Node
  | .single node => Node.descendants node
  | .sequence nodes => Node.descendantsOfNodes nodes

/-- These nodes and the nodes below them. -/
def Node.descendantsOfNodes : List Node → List Node
  | [] => []
  | node :: rest => Node.descendants node ++ Node.descendantsOfNodes rest

end

/-- A traversal that is under way. -/
structure Traversal where
  /-- The nodes that are still to be visited, each with everything below it; the next one comes
  last. -/
  pending : List Node

namespace Traversal

/-- The traversal of a tree, before the first visit. -/
def ofTree (tree : Node) : Traversal :=
  ⟨[tree]⟩

/-- Visit the next node. Slots and sequences are put on top in reverse, so that the first child of
the first slot comes next. -/
def next? (traversal : Traversal) : Option (Node × Traversal) :=
  match traversal.pending.getLast? with
  | none => none
  | some node =>
    let pending := node.slots.reverse.foldl
      (fun pending entry => pending ++ entry.2.nodes.reverse) traversal.pending.dropLast
    some (node, ⟨pending⟩)

/-- The nodes of the next `count` visits, or of as many as there are. -/
def visit (count : Nat) (traversal : Traversal) : List Node :=
  match count with
  | 0 => []
  | count + 1 =>
    match traversal.next? with
    | none => []
    | some (node, rest) => node :: visit count rest

end Traversal

mutual

/-- The paths from the node to the nodes whose kind is one of `kinds`, in document order. -/
def Node.findKinds (kinds : List String) : Node → List Path
  | ⟨kind, _, _, _, slots⟩ =>
    (if kinds.contains kind then [Path.root] else []) ++ Node.findKindsInSlots kinds slots

/-- The paths into these slots. -/
def Node.findKindsInSlots (kinds : List String) : List (String × Slot) → List Path
  | [] => []
  | (name, slot) :: rest =>
    (Slot.findKinds kinds slot).map (Segment.field name :: ·) ++ Node.findKindsInSlots kinds rest

/-- The paths into this slot. -/
def Slot.findKinds (kinds : List String) : Slot → List Path
  | .single node => Node.findKinds kinds node
  | .sequence nodes => Node.findKindsInNodes kinds 0 nodes

/-- The paths into these nodes, the first of which stands at index `i`. -/
def Node.findKindsInNodes (kinds : List String) (i : Nat) : List Node → List Path
  | [] => []
  | node :: rest =>
    (Node.findKinds kinds node).map (Segment.index i :: ·) ++
      Node.findKindsInNodes kinds (i + 1) rest

end

/-- The node that a path leads to: a name leads into a slot, and if the slot holds a sequence the
next step is an index into it. -/
def Node.follow (path : Path) (node : Node) : Option Node :=
  match path with
  | [] => some node
  | .index _ :: _ => none
  | .field name :: rest =>
    match node.slot? name with
    | none => none
    | some (.single child) => follow rest child
    | some (.sequence nodes) =>
      match rest with
      | .index i :: rest => nodes[i]?.bind (follow rest)
      | _ => none

end CanonicalTree
