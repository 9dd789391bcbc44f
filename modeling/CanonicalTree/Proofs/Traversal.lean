import CanonicalTree.Profile
import CanonicalTree.Proofs.Matching
import CanonicalTree.Proofs.Walk

/-!
# Traversals and searches

A traversal keeps a pile of nodes and never looks at a path, a search for kinds goes down the tree
with the path in hand. Both go through the tree in the order of the walk `Node.parts`, which lists
every path that leads to a node once. So the paths that a search gives lead, one by one, to those
nodes of the traversal that are wanted, and the check for forbidden kinds reports all of them
(`Profile.check_outcome`).
-/

namespace CanonicalTree

namespace Traversal

/-! ## The pile -/

/-- Putting slots on the pile from the last to the first leaves the first on top. -/
theorem foldl_reverse_nodes (slots : Fields Slot) (waiting : List Node) :
    slots.reverse.foldl (fun pending entry => pending ++ entry.2.nodes.reverse) waiting =
      waiting ++ (slots.flatMap fun entry => entry.2.nodes).reverse := by
  induction slots with
  | nil => simp
  | cons entry rest ih =>
    rw [List.reverse_cons, List.foldl_append, ih, List.flatMap_cons, List.reverse_append,
      List.foldl_cons, List.foldl_nil, List.append_assoc]

/-- The node on top is visited, and its children take its place, the first of them on top. -/
theorem next?_append (waiting : List Node) (node : Node) :
    next? ⟨waiting ++ [node]⟩ = some (node, ⟨waiting ++ node.children.reverse⟩) := by
  have hlast : (waiting ++ [node]).getLast? = some node := by simp
  have hrest : (waiting ++ [node]).dropLast = waiting := by simp
  simp only [next?, hlast, hrest, foldl_reverse_nodes]
  rfl

/-- The nodes that a traversal has still to visit, in order. -/
def remaining (traversal : Traversal) : List Node :=
  traversal.pending.reverse.flatMap Node.descendants

/-- At the beginning all nodes of the tree remain. -/
theorem remaining_ofTree (tree : Node) : (ofTree tree).remaining = tree.descendants := by
  simp [remaining, ofTree]

/-- A visit takes the first of the remaining nodes, and there is one as long as a node remains. -/
theorem next?_cases (traversal : Traversal) :
    (traversal.next? = none ∧ traversal.remaining = []) ∨
      ∃ node rest, traversal.next? = some (node, rest) ∧
        traversal.remaining = node :: rest.remaining := by
  obtain ⟨pending⟩ := traversal
  rcases List.eq_nil_or_concat' pending with rfl | ⟨waiting, node, rfl⟩
  · exact Or.inl ⟨rfl, rfl⟩
  · refine Or.inr ⟨node, ⟨waiting ++ node.children.reverse⟩, next?_append waiting node, ?_⟩
    show (waiting ++ [node]).reverse.flatMap Node.descendants =
      node :: (waiting ++ node.children.reverse).reverse.flatMap Node.descendants
    rw [List.reverse_append, List.reverse_append, List.reverse_reverse, List.flatMap_append,
      List.flatMap_append, List.reverse_singleton, List.flatMap_singleton, Node.descendants_eq node,
      List.cons_append]

/-- Visits take the remaining nodes in order. -/
theorem visit_eq_take (count : Nat) (traversal : Traversal) :
    traversal.visit count = traversal.remaining.take count := by
  induction count generalizing traversal with
  | zero => rfl
  | succ count ih =>
    rcases next?_cases traversal with ⟨hnext, hnone⟩ | ⟨node, rest, hnext, hremaining⟩
    · simp only [visit, hnext, hnone, List.take_nil]
    · simp only [visit, hnext, hremaining, List.take_succ_cons, ih rest]

end Traversal

namespace Node

variable {α : Type} {enter leave : Node → List α}

/-! ## Walks without paths -/

theorem map_snd_map_below (segment : Segment) (entries : List (Path × α)) :
    (entries.map (below segment)).map Prod.snd = entries.map Prod.snd := by
  rw [List.map_map]
  rfl

theorem map_snd_walkNodes (i : Nat) (nodes : List Node) :
    (walkNodes enter leave i nodes).map Prod.snd =
      nodes.flatMap fun node => (node.walk enter leave).map Prod.snd := by
  induction nodes generalizing i with
  | nil => simp [walkNodes]
  | cons node rest ih =>
    rw [walkNodes, List.map_append, map_snd_map_below, ih, List.flatMap_cons]

/-- Without paths a walk over slots is a walk over each of the nodes in them. -/
theorem map_snd_walkSlots (slots : Fields Slot) :
    (walkSlots enter leave slots).map Prod.snd =
      (slots.flatMap fun entry => entry.2.nodes).flatMap fun node =>
        (node.walk enter leave).map Prod.snd := by
  induction slots with
  | nil => simp [walkSlots]
  | cons entry rest ih =>
    obtain ⟨name, slot⟩ := entry
    have hslot : (slot.walk enter leave).map Prod.snd =
        slot.nodes.flatMap fun node => (node.walk enter leave).map Prod.snd := by
      cases slot with
      | single node => rw [Slot.walk, Slot.nodes, List.flatMap_singleton]
      | sequence nodes => rw [Slot.walk, Slot.nodes, map_snd_walkNodes]
    rw [walkSlots, List.map_append, map_snd_map_below, hslot, ih, List.flatMap_cons,
      List.flatMap_append]

/-- The nodes that are listed with their paths are the nodes of the tree. -/
theorem map_snd_parts (tree : Node) : tree.parts.map Prod.snd = tree.descendants := by
  induction tree using induction_children with
  | step tree ih =>
    have hchildren : (tree.children.flatMap fun child => child.parts.map Prod.snd) =
        tree.children.flatMap descendants := by
      rw [List.flatMap_def, List.flatMap_def, List.map_congr_left ih]
    rw [parts_eq, List.map_cons, map_snd_walkSlots, descendants_eq, ← hchildren]
    rfl

/-- A node that a path leads to is a part of the tree, on that path. -/
theorem mem_parts_of_follow {tree part : Node} {path : Path} (h : tree.follow path = some part) :
    (path, part) ∈ tree.parts := by
  induction tree using induction_children generalizing path with
  | step tree ih =>
    rw [parts_eq]
    rcases follow_cases h with ⟨rfl, rfl⟩ | ⟨steps, child, rest, rfl, hchild, hfollow⟩
    · exact List.mem_cons_self
    · have hpart := ih child hchild.mem_children hfollow
      refine List.mem_cons_of_mem _ (mem_walkSlots.mpr ?_)
      cases hchild with
      | single hslot => exact ⟨_, _, rest, Fields.mem_of_get? hslot, rfl, hpart⟩
      | @item name nodes i _ hslot hitem =>
        refine ⟨name, _, .index i :: rest, Fields.mem_of_get? hslot, rfl, ?_⟩
        refine mem_walkNodes.mpr ⟨i, child, rest, hitem, ?_, hpart⟩
        rw [Nat.zero_add]

/-- In a well-formed tree, the listed paths are those that lead to a node. -/
theorem mem_parts_iff {tree part : Node} (h : tree.WellFormed) {path : Path} :
    (path, part) ∈ tree.parts ↔ tree.follow path = some part :=
  ⟨follow_of_mem_parts h, mem_parts_of_follow⟩

/-! ## Searches -/

mutual

/-- A walk that lists less of every node lists a part of what the walk lists. -/
theorem filter_walk (p : α → Bool) : ∀ tree : Node,
    (tree.walk enter leave).filter (fun entry => p entry.2) =
      tree.walk (fun node => (enter node).filter p) (fun node => (leave node).filter p)
  | ⟨kind, token, position, properties, slots⟩ => by
    rw [walk, walk, List.filter_append, List.filter_append, filter_walkSlots p slots,
      List.filter_map, List.filter_map]
    rfl

/-- Entries can be chosen after a walk over slots or on the way. -/
theorem filter_walkSlots (p : α → Bool) : ∀ slots : List (String × Slot),
    (walkSlots enter leave slots).filter (fun entry => p entry.2) =
      walkSlots (fun node => (enter node).filter p) (fun node => (leave node).filter p) slots
  | [] => by rw [walkSlots, walkSlots, List.filter_nil]
  | (name, slot) :: rest => by
    rw [walkSlots, walkSlots, List.filter_append, List.filter_map, filter_walkSlots p rest,
      ← filter_walkSlot p slot]
    rfl

theorem filter_walkSlot (p : α → Bool) : ∀ slot : Slot,
    (slot.walk enter leave).filter (fun entry => p entry.2) =
      slot.walk (fun node => (enter node).filter p) (fun node => (leave node).filter p)
  | .single node => by rw [Slot.walk, Slot.walk, filter_walk p node]
  | .sequence nodes => by rw [Slot.walk, Slot.walk, filter_walkNodes p 0 nodes]

theorem filter_walkNodes (p : α → Bool) : ∀ (i : Nat) (nodes : List Node),
    (walkNodes enter leave i nodes).filter (fun entry => p entry.2) =
      walkNodes (fun node => (enter node).filter p) (fun node => (leave node).filter p) i nodes
  | i, [] => by rw [walkNodes, walkNodes, List.filter_nil]
  | i, node :: rest => by
    rw [walkNodes, walkNodes, List.filter_append, List.filter_map, filter_walkNodes p (i + 1) rest,
      ← filter_walk p node]
    rfl

end

/-- A search lists the paths of the nodes that are wanted. -/
theorem findKinds_eq (kinds : List String) (tree : Node) :
    tree.findKinds kinds = (tree.parts.filter (·.2.kind ∈ kinds)).map Prod.fst := by
  have hwanted : wanted kinds = fun node => [node].filter (·.kind ∈ kinds) := by
    funext node
    by_cases h : node.kind ∈ kinds
    · simp [wanted, h]
    · simp [wanted, h]
  have hfilter : tree.parts.filter (·.2.kind ∈ kinds) =
      tree.walk (fun node => [node].filter (·.kind ∈ kinds)) (fun _ => []) :=
    filter_walk (fun node : Node => node.kind ∈ kinds) tree
  rw [findKinds_eq_walk, hwanted, hfilter]

/-- The paths that a search finds are all different. -/
theorem nodup_findKinds {tree : Node} (h : tree.WellFormed) (kinds : List String) :
    (tree.findKinds kinds).Nodup := by
  have hsublist : (tree.parts.filter (·.2.kind ∈ kinds)).Sublist tree.parts := List.filter_sublist
  rw [findKinds_eq]
  exact (nodup_parts h).sublist (hsublist.map Prod.fst)

/-- The paths that a search gives lead, one by one, to the wanted nodes of the tree. -/
theorem follow_findKinds {tree : Node} (h : tree.WellFormed) (kinds : List String) :
    (tree.findKinds kinds).map (fun path => tree.follow path) =
      (tree.descendants.filter (·.kind ∈ kinds)).map some := by
  have hfollow : ∀ part ∈ tree.parts.filter (·.2.kind ∈ kinds),
      tree.follow part.1 = some part.2 := by
    intro part hpart
    exact follow_of_mem_parts h (List.mem_filter.mp hpart).1
  calc (tree.findKinds kinds).map (fun path => tree.follow path)
      = (tree.parts.filter (·.2.kind ∈ kinds)).map (fun part => tree.follow part.1) := by
        rw [findKinds_eq, List.map_map]
        rfl
    _ = (tree.parts.filter (·.2.kind ∈ kinds)).map (fun part => some part.2) :=
        List.map_congr_left hfollow
    _ = (tree.descendants.filter (·.kind ∈ kinds)).map some := by
        rw [← map_snd_parts, List.filter_map, List.map_map]
        rfl

end Node

namespace Profile

/-- A tree is refused for the first node of a forbidden kind, with all of them listed. -/
theorem check_eq_error_iff {profile : Profile} {tree : Node} {fault : NormalizeFault} :
    profile.check tree = .error fault ↔
      ∃ first rest, tree.findKinds profile.forbidden = first :: rest ∧
        fault = .leftOver first (first :: rest) := by
  unfold check
  cases tree.findKinds profile.forbidden with
  | nil => simp
  | cons first rest => simp [eq_comm]

/-- A tree is refused exactly if it holds a node of a forbidden kind. -/
theorem exists_check_eq_error_iff {profile : Profile} {tree : Node} :
    (∃ fault, profile.check tree = .error fault) ↔
      ∃ node ∈ tree.descendants, node.kind ∈ profile.forbidden := by
  have hsome : (∃ fault, profile.check tree = .error fault) ↔
      tree.findKinds profile.forbidden ≠ [] := by
    simp only [check_eq_error_iff, List.ne_nil_iff_exists_cons]
    constructor
    · rintro ⟨fault, first, rest, hfound, -⟩
      exact ⟨first, rest, hfound⟩
    · rintro ⟨first, rest, hfound⟩
      exact ⟨_, first, rest, hfound, rfl⟩
  rw [hsome, Ne, Node.findKinds_eq_nil_iff]
  simp only [not_forall, not_not, exists_prop]

/-- A traversal visits every node of a tree once, a node before its children and the children in
order, and a search for kinds gives distinct paths that lead, one by one, to the wanted nodes in the
order of the traversal. So a tree is refused if and only if one of its nodes has a forbidden kind,
and the paths of all these nodes are reported in the order of the traversal, the first one apart. -/
theorem check_outcome (tree : Node) (hwell : tree.WellFormed) :
    ((∀ count, (Traversal.ofTree tree).visit count = tree.descendants.take count) ∧
      tree.descendants = tree :: tree.children.flatMap Node.descendants ∧
      tree.parts.map Prod.snd = tree.descendants ∧ (tree.parts.map Prod.fst).Nodup ∧
      ∀ path node, (path, node) ∈ tree.parts ↔ tree.follow path = some node) ∧
    (∀ kinds, (tree.findKinds kinds).Nodup ∧
      (tree.findKinds kinds).map (fun path => tree.follow path) =
        (tree.descendants.filter (·.kind ∈ kinds)).map some) ∧
    ∀ profile : Profile,
      ((∃ fault, profile.check tree = .error fault) ↔
        ∃ node ∈ tree.descendants, node.kind ∈ profile.forbidden) ∧
      ∀ fault, profile.check tree = .error fault →
        ∃ first rest, fault = .leftOver first (first :: rest) ∧
          first :: rest = (tree.parts.filter (·.2.kind ∈ profile.forbidden)).map Prod.fst := by
  refine ⟨⟨fun count => ?_, tree.descendants_eq, tree.map_snd_parts, Node.nodup_parts hwell,
    fun path node => Node.mem_parts_iff hwell⟩, fun kinds => ?_, fun profile => ?_⟩
  · rw [Traversal.visit_eq_take, Traversal.remaining_ofTree]
  · exact ⟨Node.nodup_findKinds hwell kinds, Node.follow_findKinds hwell kinds⟩
  · refine ⟨exists_check_eq_error_iff, fun fault hfault => ?_⟩
    obtain ⟨first, rest, hfound, hleft⟩ := check_eq_error_iff.mp hfault
    exact ⟨first, rest, hleft, hfound.symm.trans (Node.findKinds_eq _ tree)⟩

/-- A list with marks at three depths, and with an empty sequence before them. -/
def markedList : Node :=
  { kind := "list"
    slots :=
      [("none", .sequence []),
       ("items", .sequence
        [{ kind := "item", slots := [("mark", .single { kind := "mark" })] },
         { kind := "mark", slots := [("items", .sequence [{ kind := "mark" }])] }]),
       ("last", .single { kind := "mark" })] }

/-- The marks are reported in the order of the traversal, a mark before the mark that it holds. -/
theorem check_outcome_markedList :
    let profile : Profile := { pipeline := {}, forbidden := ["mark"] }
    let paths : List Path :=
      [[.field "items", .index 0, .field "mark"], [.field "items", .index 1],
        [.field "items", .index 1, .field "items", .index 0], [.field "last"]]
    profile.check markedList = .error (.leftOver [.field "items", .index 0, .field "mark"] paths) ∧
      (∃ node ∈ markedList.descendants, node.kind ∈ profile.forbidden) ∧
      paths.map (fun path => (markedList.follow path).map Node.kind) =
        (((Traversal.ofTree markedList).visit 9).filter (·.kind ∈ ["mark"])).map
          (fun node => some node.kind) := by
  intro profile paths
  have hwell : markedList.WellFormed := by
    simp [markedList, Node.WellFormed, Node.WellFormedSlots, Slot.WellFormed,
      Node.WellFormedNodes, Fields.Distinct]
  have hcheck : profile.check markedList =
      .error (.leftOver [.field "items", .index 0, .field "mark"] paths) := rfl
  obtain ⟨⟨hvisit, -⟩, hsearch, hprofile⟩ := check_outcome markedList hwell
  obtain ⟨hiff, -⟩ := hprofile profile
  have hpaths : markedList.findKinds ["mark"] = paths := rfl
  have hall : markedList.descendants.take 9 = markedList.descendants := rfl
  have hfollow := congrArg (List.map (Option.map Node.kind)) (hsearch ["mark"]).2
  rw [hpaths, List.map_map, List.map_map] at hfollow
  refine ⟨hcheck, hiff.mp ⟨_, hcheck⟩, ?_⟩
  rw [hvisit, hall]
  exact hfollow

end Profile

end CanonicalTree
