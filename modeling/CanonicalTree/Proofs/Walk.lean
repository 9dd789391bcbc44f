import CanonicalTree.Failure
import CanonicalTree.Proofs.Descendants
import CanonicalTree.Proofs.Sameness
import Mathlib.Data.List.Nodup

/-!
# Walks through a tree

A walk lists something of every node together with the path that leads there: what a node gives when
it is entered, then the same for its children slot by slot, then what it gives when it is left.
`Node.parts` is the walk that lists the nodes themselves, and a search for kinds is a walk that
lists some of them. In a well-formed tree the listed path leads to the node that gave the entry.

A stage that goes through a tree in the order of a walk stops at the first entry that it refuses;
`FirstRefusal` says so of its outcome.
-/

namespace CanonicalTree

variable {α : Type}

/-- An entry as seen from one step further out. -/
def below (segment : Segment) (entry : Path × α) : Path × α :=
  (segment :: entry.1, entry.2)

mutual

/-- What `enter` and `leave` list of the nodes of a tree. -/
def Node.walk (enter leave : Node → List α) : Node → List (Path × α)
  | ⟨kind, token, position, properties, slots⟩ =>
    (enter ⟨kind, token, position, properties, slots⟩).map (Path.root, ·) ++
      Node.walkSlots enter leave slots ++
      (leave ⟨kind, token, position, properties, slots⟩).map (Path.root, ·)

/-- The walk through these slots. -/
def Node.walkSlots (enter leave : Node → List α) : List (String × Slot) → List (Path × α)
  | [] => []
  | (name, slot) :: rest =>
    (Slot.walk enter leave slot).map (below (.field name)) ++ Node.walkSlots enter leave rest

/-- The walk through this slot. -/
def Slot.walk (enter leave : Node → List α) : Slot → List (Path × α)
  | .single node => Node.walk enter leave node
  | .sequence nodes => Node.walkNodes enter leave 0 nodes

/-- The walk through these nodes, the first of which stands at index `i`. -/
def Node.walkNodes (enter leave : Node → List α) (i : Nat) : List Node → List (Path × α)
  | [] => []
  | node :: rest =>
    (Node.walk enter leave node).map (below (.index i)) ++ Node.walkNodes enter leave (i + 1) rest

end

/-- The nodes of a tree with their paths, in document order. -/
def Node.parts (tree : Node) : List (Path × Node) :=
  tree.walk (fun node => [node]) (fun _ => [])

namespace Node

variable {enter leave : Node → List α}

/-- A walk enters a node, goes over its slots and leaves it. -/
theorem walk_eq (node : Node) :
    node.walk enter leave =
      (enter node).map (Path.root, ·) ++ walkSlots enter leave node.slots ++
        (leave node).map (Path.root, ·) := by
  cases node
  rw [walk]

theorem walkSlots_append (slots others : Fields Slot) :
    walkSlots enter leave (slots ++ others) =
      walkSlots enter leave slots ++ walkSlots enter leave others := by
  induction slots with
  | nil => simp [walkSlots]
  | cons entry rest ih =>
    obtain ⟨name, slot⟩ := entry
    simp [walkSlots, ih]

/-! ## Where entries come from -/

theorem mem_walkNodes {nodes : List Node} {i : Nat} {path : Path} {a : α} :
    (path, a) ∈ walkNodes enter leave i nodes ↔
      ∃ j node inner, nodes[j]? = some node ∧ path = .index (i + j) :: inner ∧
        (inner, a) ∈ node.walk enter leave := by
  induction nodes generalizing i with
  | nil => simp [walkNodes]
  | cons node rest ih =>
    rw [walkNodes, List.mem_append, List.mem_map, ih]
    constructor
    · rintro (⟨⟨inner, a⟩, hmem, heq⟩ | ⟨j, other, inner, hj, rfl, hmem⟩)
      · cases heq
        exact ⟨0, node, inner, rfl, rfl, hmem⟩
      · exact ⟨j + 1, other, inner, hj, by rw [Nat.add_right_comm, Nat.add_assoc], hmem⟩
    · rintro ⟨j, other, inner, hj, rfl, hmem⟩
      cases j with
      | zero =>
        cases hj
        exact Or.inl ⟨_, hmem, rfl⟩
      | succ j =>
        exact Or.inr ⟨j, other, inner, hj, by rw [Nat.add_right_comm, Nat.add_assoc], hmem⟩

/-- What a walk over slots meets, it meets in one of the slots, below its name. -/
theorem mem_walkSlots {slots : Fields Slot} {path : Path} {a : α} :
    (path, a) ∈ walkSlots enter leave slots ↔
      ∃ name slot inner, (name, slot) ∈ slots ∧ path = .field name :: inner ∧
        (inner, a) ∈ slot.walk enter leave := by
  induction slots with
  | nil => simp [walkSlots]
  | cons entry rest ih =>
    obtain ⟨name, slot⟩ := entry
    rw [walkSlots, List.mem_append, List.mem_map, ih]
    constructor
    · rintro (⟨⟨inner, a⟩, hmem, heq⟩ | ⟨other, slot', inner, hslot, rfl, hmem⟩)
      · cases heq
        exact ⟨name, slot, inner, List.mem_cons_self, rfl, hmem⟩
      · exact ⟨other, slot', inner, List.mem_cons_of_mem _ hslot, rfl, hmem⟩
    · rintro ⟨other, slot', inner, hslot, rfl, hmem⟩
      rcases List.mem_cons.mp hslot with heq | hslot
      · cases heq
        exact Or.inl ⟨_, hmem, rfl⟩
      · exact Or.inr ⟨other, slot', inner, hslot, rfl, hmem⟩

/-- What a walk meets, it meets at the node itself or in its slots. -/
theorem mem_walk {node : Node} {path : Path} {a : α} :
    (path, a) ∈ node.walk enter leave ↔
      (path = Path.root ∧ (a ∈ enter node ∨ a ∈ leave node)) ∨
        (path, a) ∈ walkSlots enter leave node.slots := by
  rw [walk_eq, List.mem_append, List.mem_append]
  simp only [List.mem_map, Prod.mk.injEq]
  constructor
  · rintro ((⟨b, hb, rfl, rfl⟩ | hslots) | ⟨b, hb, rfl, rfl⟩)
    · exact Or.inl ⟨rfl, Or.inl hb⟩
    · exact Or.inr hslots
    · exact Or.inl ⟨rfl, Or.inr hb⟩
  · rintro (⟨rfl, ha | ha⟩ | hslots)
    · exact Or.inl (Or.inl ⟨a, ha, rfl, rfl⟩)
    · exact Or.inr ⟨a, ha, rfl, rfl⟩
    · exact Or.inl (Or.inr hslots)

/-- What a walk over a slot meets, it meets in one of the nodes in it. -/
theorem exists_mem_walkSlot {slot : Slot} {a : α} :
    (∃ path, (path, a) ∈ slot.walk enter leave) ↔
      ∃ child ∈ slot.nodes, ∃ path, (path, a) ∈ child.walk enter leave := by
  cases slot with
  | single node => simp [Slot.walk, Slot.nodes]
  | sequence nodes =>
    rw [Slot.walk, Slot.nodes]
    constructor
    · rintro ⟨path, hmem⟩
      obtain ⟨j, child, inner, hj, -, hinner⟩ := mem_walkNodes.mp hmem
      exact ⟨child, List.mem_of_getElem? hj, inner, hinner⟩
    · rintro ⟨child, hchild, inner, hinner⟩
      obtain ⟨j, hj⟩ := List.getElem?_of_mem hchild
      exact ⟨_, mem_walkNodes.mpr ⟨j, child, inner, hj, rfl, hinner⟩⟩

/-- A walk lists what the nodes of the tree give. -/
theorem exists_mem_walk {tree : Node} {a : α} :
    (∃ path, (path, a) ∈ tree.walk enter leave) ↔
      ∃ node ∈ tree.descendants, a ∈ enter node ∨ a ∈ leave node := by
  induction tree using induction_children with
  | step tree ih =>
    constructor
    · rintro ⟨path, hmem⟩
      rcases mem_walk.mp hmem with ⟨-, ha⟩ | hslots
      · exact ⟨tree, tree.self_mem_descendants, ha⟩
      · obtain ⟨name, slot, inner, hslot, -, hinner⟩ := mem_walkSlots.mp hslots
        obtain ⟨child, hchild, hwalk⟩ := exists_mem_walkSlot.mp ⟨inner, hinner⟩
        have hchild := mem_children.mpr ⟨_, hslot, hchild⟩
        obtain ⟨node, hnode, ha⟩ := (ih child hchild).mp hwalk
        exact ⟨node, mem_descendants.mpr (Or.inr ⟨child, hchild, hnode⟩), ha⟩
    · rintro ⟨node, hnode, ha⟩
      rcases mem_descendants.mp hnode with rfl | ⟨child, hchild, hnode⟩
      · exact ⟨_, mem_walk.mpr (Or.inl ⟨rfl, ha⟩)⟩
      · have hwalk := (ih child hchild).mpr ⟨node, hnode, ha⟩
        obtain ⟨⟨name, slot⟩, hslot, hchild⟩ := mem_children.mp hchild
        obtain ⟨inner, hinner⟩ := exists_mem_walkSlot.mpr ⟨child, hchild, hwalk⟩
        exact ⟨_, mem_walk.mpr (Or.inr (mem_walkSlots.mpr ⟨name, slot, inner, hslot, rfl, hinner⟩))⟩

/-! ## Where paths lead -/

/-- A path into a slot with a single node goes on from the node. -/
theorem follow_single {node child : Node} {name : String} (path : Path)
    (h : node.slot? name = some (.single child)) :
    node.follow (.field name :: path) = child.follow path := by
  rw [follow, h]

/-- A path into a sequence goes on from the node at the index. -/
theorem follow_sequence {node : Node} {nodes : List Node} {name : String} (i : Nat) (path : Path)
    (h : node.slot? name = some (.sequence nodes)) :
    node.follow (.field name :: .index i :: path) = nodes[i]?.bind (follow path) := by
  rw [follow, h]

/-- The steps that lead from a node to one of its children: the name of a slot and, if the slot
holds a sequence, an index. -/
inductive ChildAt (node : Node) : Path → Node → Prop
  | single {name : String} {child : Node} :
    node.slot? name = some (.single child) → ChildAt node [.field name] child
  | item {name : String} {nodes : List Node} {i : Nat} {child : Node} :
    node.slot? name = some (.sequence nodes) → nodes[i]? = some child →
      ChildAt node [.field name, .index i] child

variable {node child part : Node} {steps path : Path}

theorem ChildAt.ne_nil (h : node.ChildAt steps child) : steps ≠ [] := by
  cases h with
  | single _ => exact List.cons_ne_nil _ _
  | item _ _ => exact List.cons_ne_nil _ _

theorem ChildAt.mem_children (h : node.ChildAt steps child) : child ∈ node.children := by
  cases h with
  | single hslot =>
    exact Node.mem_children.mpr ⟨_, Fields.mem_of_get? hslot, List.mem_singleton.mpr rfl⟩
  | item hslot hitem =>
    exact Node.mem_children.mpr ⟨_, Fields.mem_of_get? hslot, List.mem_of_getElem? hitem⟩

/-- A path through a child goes on from the child. -/
theorem ChildAt.follow_append (h : node.ChildAt steps child) (path : Path) :
    node.follow (steps ++ path) = child.follow path := by
  cases h with
  | single hslot => exact follow_single path hslot
  | @item name nodes i _ hslot hitem =>
    show node.follow (.field name :: .index i :: path) = _
    rw [follow_sequence i path hslot, hitem, Option.bind_some]

/-- A path ends at the node or takes the steps to one of its children. -/
theorem follow_cases (h : node.follow path = some part) :
    (path = [] ∧ part = node) ∨
      ∃ steps child rest, path = steps ++ rest ∧ node.ChildAt steps child ∧
        child.follow rest = some part := by
  rcases path with - | ⟨⟨name⟩ | ⟨i⟩, rest⟩
  · exact Or.inl ⟨rfl, (Option.some.inj h).symm⟩
  · refine Or.inr ?_
    cases hslot : node.slot? name with
    | none =>
      rw [follow, hslot] at h
      cases h
    | some slot =>
      cases slot with
      | single child =>
        rw [follow_single rest hslot] at h
        exact ⟨[.field name], child, rest, rfl, .single hslot, h⟩
      | sequence nodes =>
        -- a sequence is entered by an index, and by nothing else
        rcases rest with - | ⟨⟨inner⟩ | ⟨i⟩, rest⟩
        · rw [follow, hslot] at h
          cases h
        · rw [follow, hslot] at h
          cases h
        · rw [follow_sequence i rest hslot] at h
          obtain ⟨child, hitem, hchild⟩ := Option.bind_eq_some_iff.mp h
          exact ⟨[.field name, .index i], child, rest, rfl, .item hslot hitem, hchild⟩
  · cases h

/-- In a well-formed tree the path of an entry leads to the node that gave the entry. -/
theorem exists_follow {tree : Node} (h : tree.WellFormed) {path : Path} {a : α}
    (hmem : (path, a) ∈ tree.walk enter leave) :
    ∃ node, tree.follow path = some node ∧ (a ∈ enter node ∨ a ∈ leave node) := by
  induction tree using induction_children generalizing path with
  | step tree ih =>
    obtain ⟨-, hdistinct, hchildren⟩ := wellFormed_iff.mp h
    rcases mem_walk.mp hmem with ⟨rfl, ha⟩ | hslots
    · exact ⟨tree, rfl, ha⟩
    · obtain ⟨name, slot, inner, hslot, rfl, hinner⟩ := mem_walkSlots.mp hslots
      -- the names are distinct, so the name leads to this slot and to no other
      have hget : tree.slot? name = some slot := hdistinct.get?_eq_some_iff.mpr hslot
      have hnodes : ∀ child ∈ slot.nodes, child ∈ tree.children := fun child hchild =>
        mem_children.mpr ⟨(name, slot), hslot, hchild⟩
      cases slot with
      | single child =>
        have hchild := hnodes child (List.mem_singleton.mpr rfl)
        rw [follow_single inner hget]
        exact ih child hchild (hchildren child hchild) hinner
      | sequence nodes =>
        obtain ⟨j, child, rest, hj, rfl, hrest⟩ := mem_walkNodes.mp hinner
        have hchild := hnodes child (List.mem_of_getElem? hj)
        rw [follow_sequence _ rest hget, Nat.zero_add, hj]
        exact ih child hchild (hchildren child hchild) hrest

/-- The path of a part leads to it, in a well-formed tree. -/
theorem follow_of_mem_parts {tree part : Node} (h : tree.WellFormed) {path : Path}
    (hmem : (path, part) ∈ tree.parts) : tree.follow path = some part := by
  obtain ⟨node, hfollow, hnode | hnode⟩ := exists_follow h hmem
  · rw [hfollow, List.mem_singleton.mp hnode]
  · cases hnode

/-! ## Parts -/

/-- The parts of a tree are the tree itself and those in its slots. -/
theorem parts_eq (tree : Node) :
    tree.parts = (Path.root, tree) :: walkSlots (fun node => [node]) (fun _ => []) tree.slots := by
  rw [parts, walk_eq]
  simp

/-- Every node of the tree has a place. -/
theorem exists_mem_parts {tree node : Node} :
    (∃ path, (path, node) ∈ tree.parts) ↔ node ∈ tree.descendants := by
  unfold parts
  simp [exists_mem_walk]

theorem map_fst_map_below (segment : Segment) (entries : List (Path × α)) :
    (entries.map (below segment)).map Prod.fst = (entries.map Prod.fst).map (segment :: ·) := by
  simp [below]

/-- A walk over a sequence meets different paths if the walks over its nodes do. -/
theorem nodup_walkNodes {nodes : List Node} {i : Nat}
    (h : ∀ node ∈ nodes, ((node.walk enter leave).map Prod.fst).Nodup) :
    ((walkNodes enter leave i nodes).map Prod.fst).Nodup := by
  induction nodes generalizing i with
  | nil => simp [walkNodes]
  | cons node rest ih =>
    obtain ⟨hnode, hrest⟩ := List.forall_mem_cons.mp h
    rw [walkNodes, List.map_append, map_fst_map_below]
    refine (hnode.map List.cons_injective).append (ih hrest) ?_
    -- the first step tells the nodes apart
    intro path hfirst hsecond
    obtain ⟨_, -, rfl⟩ := List.mem_map.mp hfirst
    obtain ⟨⟨path, a⟩, hsecond, heq⟩ := List.mem_map.mp hsecond
    obtain ⟨j, -, inner, -, rfl, -⟩ := mem_walkNodes.mp hsecond
    have hindex := (List.cons.inj heq).1
    rw [Segment.index.injEq] at hindex
    omega

/-- A walk over slots with different names meets different paths if the walks over them do. -/
theorem nodup_walkSlots {slots : Fields Slot} (hdistinct : Fields.Distinct slots)
    (h : ∀ entry ∈ slots, ((entry.2.walk enter leave).map Prod.fst).Nodup) :
    ((walkSlots enter leave slots).map Prod.fst).Nodup := by
  induction slots with
  | nil => simp [walkSlots]
  | cons entry rest ih =>
    obtain ⟨name, slot⟩ := entry
    obtain ⟨hslot, hrest⟩ := List.forall_mem_cons.mp h
    obtain ⟨hfresh, hdistinct⟩ := List.nodup_cons.mp hdistinct
    rw [walkSlots, List.map_append, map_fst_map_below]
    refine (hslot.map List.cons_injective).append (ih hdistinct hrest) ?_
    intro path hfirst hsecond
    obtain ⟨_, -, rfl⟩ := List.mem_map.mp hfirst
    obtain ⟨⟨path, a⟩, hsecond, heq⟩ := List.mem_map.mp hsecond
    obtain ⟨other, slot', inner, hmem, rfl, -⟩ := mem_walkSlots.mp hsecond
    have hname := (List.cons.inj heq).1
    rw [Segment.field.injEq] at hname
    exact hfresh (hname ▸ List.mem_map.mpr ⟨_, hmem, rfl⟩)

/-- No two nodes of a well-formed tree have the same path. -/
theorem nodup_parts {tree : Node} (h : tree.WellFormed) : (tree.parts.map Prod.fst).Nodup := by
  induction tree using induction_children with
  | step tree ih =>
    obtain ⟨-, hdistinct, hchildren⟩ := wellFormed_iff.mp h
    rw [parts_eq, List.map_cons]
    refine List.nodup_cons.mpr ⟨?_, nodup_walkSlots hdistinct fun entry hentry => ?_⟩
    · intro hroot
      obtain ⟨⟨path, part⟩, hmem, hpath⟩ := List.mem_map.mp hroot
      obtain ⟨name, slot, inner, -, rfl, -⟩ := mem_walkSlots.mp hmem
      cases hpath
    · have hparts : ∀ child ∈ entry.2.nodes, (child.parts.map Prod.fst).Nodup := by
        intro child hchild
        have hchild := mem_children.mpr ⟨entry, hentry, hchild⟩
        exact ih child hchild (hchildren child hchild)
      obtain ⟨name, slot⟩ := entry
      cases slot with
      | single child => exact hparts child (List.mem_singleton.mpr rfl)
      | sequence nodes => exact nodup_walkNodes hparts

/-! ## Searching for kinds -/

/-- A node whose kind is wanted. -/
def wanted (kinds : List String) (node : Node) : List Node :=
  if kinds.contains node.kind then [node] else []

mutual

/-- The paths that a search gives are those of a walk that lists the wanted nodes. -/
theorem findKinds_eq_walk (kinds : List String) : ∀ tree : Node,
    tree.findKinds kinds = (tree.walk (wanted kinds) fun _ => []).map Prod.fst
  | ⟨kind, token, position, properties, slots⟩ => by
    rw [findKinds, walk, findKindsInSlots_eq_walk kinds slots, wanted]
    split
    · simp
    · simp

/-- The search of slots is a walk over them. -/
theorem findKindsInSlots_eq_walk (kinds : List String) : ∀ slots : List (String × Slot),
    findKindsInSlots kinds slots = (walkSlots (wanted kinds) (fun _ => []) slots).map Prod.fst
  | [] => by rw [findKindsInSlots, walkSlots, List.map_nil]
  | (name, slot) :: rest => by
    rw [findKindsInSlots, walkSlots, List.map_append, map_fst_map_below, findKindsInSlot_eq_walk,
      findKindsInSlots_eq_walk]

theorem findKindsInSlot_eq_walk (kinds : List String) : ∀ slot : Slot,
    slot.findKinds kinds = (slot.walk (wanted kinds) fun _ => []).map Prod.fst
  | .single node => by rw [Slot.findKinds, Slot.walk, findKinds_eq_walk]
  | .sequence nodes => by rw [Slot.findKinds, Slot.walk, findKindsInNodes_eq_walk]

theorem findKindsInNodes_eq_walk (kinds : List String) : ∀ (i : Nat) (nodes : List Node),
    findKindsInNodes kinds i nodes = (walkNodes (wanted kinds) (fun _ => []) i nodes).map Prod.fst
  | i, [] => by rw [findKindsInNodes, walkNodes, List.map_nil]
  | i, node :: rest => by
    rw [findKindsInNodes, walkNodes, List.map_append, map_fst_map_below, findKinds_eq_walk,
      findKindsInNodes_eq_walk]

end

/-- A search finds nothing if and only if no node of the tree is of a wanted kind. -/
theorem findKinds_eq_nil_iff {kinds : List String} {tree : Node} :
    tree.findKinds kinds = [] ↔ ∀ part ∈ tree.descendants, part.kind ∉ kinds := by
  rw [findKinds_eq_walk, List.map_eq_nil_iff, List.eq_nil_iff_forall_not_mem]
  constructor
  · intro h part hpart hkind
    have hwanted : part ∈ wanted kinds part := by simp [wanted, hkind]
    obtain ⟨path, hmem⟩ := exists_mem_walk.mpr ⟨part, hpart, Or.inl hwanted⟩
    exact h _ hmem
  · rintro h ⟨path, found⟩ hmem
    obtain ⟨part, hpart, hfound | hfound⟩ := exists_mem_walk.mp ⟨path, hmem⟩
    · have hkind := h part hpart
      simp [wanted, hkind] at hfound
    · cases hfound

end Node

/-! ## The first refusal -/

section FirstRefusal

variable {β γ : Type} {Refuses : α → Cause → Prop}

/-- The outcome of going through the entries one by one: it is a failure if one of them is refused,
and then it stands at the first of these. -/
def FirstRefusal (Refuses : α → Cause → Prop) (entries : List (Path × α)) :
    Except Failure β → Prop
  | .ok _ => ∀ entry ∈ entries, ∀ cause, ¬ Refuses entry.2 cause
  | .error failure => ∃ before a after, entries = before ++ (failure.path, a) :: after ∧
      (∀ earlier ∈ before, ∀ cause, ¬ Refuses earlier.2 cause) ∧ Refuses a failure.cause

namespace FirstRefusal

variable {entries others : List (Path × α)} {outcome : Except Failure β}

theorem nothing {result : β} : FirstRefusal Refuses [] (.ok result) :=
  nofun

/-- If nothing is refused among the first entries, the outcome is that of the entries that
follow. -/
theorem bind {step : β → Except Failure γ} (h : FirstRefusal Refuses entries outcome)
    (hstep : ∀ result, outcome = .ok result → FirstRefusal Refuses others (step result)) :
    FirstRefusal Refuses (entries ++ others) (outcome >>= step) := by
  cases outcome with
  | error failure =>
    obtain ⟨before, a, after, rfl, hbefore, ha⟩ := h
    exact ⟨before, a, after ++ others, by simp, hbefore, ha⟩
  | ok result =>
    have hothers := hstep result rfl
    show FirstRefusal Refuses (entries ++ others) (step result)
    cases hlast : step result with
    | ok last =>
      rw [hlast] at hothers
      exact List.forall_mem_append.mpr ⟨h, hothers⟩
    | error failure =>
      rw [hlast] at hothers
      obtain ⟨before, a, after, rfl, hbefore, ha⟩ := hothers
      exact ⟨entries ++ before, a, after, by simp, List.forall_mem_append.mpr ⟨h, hbefore⟩, ha⟩

/-- What follows without going through an entry does not change the outcome. -/
theorem map {step : β → Except Failure γ} (h : FirstRefusal Refuses entries outcome)
    (hstep : ∀ result, ∃ last, step result = .ok last) :
    FirstRefusal Refuses entries (outcome >>= step) := by
  rw [← List.append_nil entries]
  refine h.bind fun result _ => ?_
  obtain ⟨last, hlast⟩ := hstep result
  rw [hlast]
  exact nothing

/-- Seen from one step further out, entries and failures have the longer path. -/
theorem within (segment : Segment) (h : FirstRefusal Refuses entries outcome) :
    FirstRefusal Refuses (entries.map (below segment)) (CanonicalTree.within segment outcome) := by
  cases outcome with
  | ok result => exact List.forall_mem_map.mpr h
  | error failure =>
    obtain ⟨before, a, after, rfl, hbefore, ha⟩ := h
    refine ⟨before.map (below segment), a, after.map (below segment), ?_, ?_, ha⟩
    · rw [List.map_append, List.map_cons]
      rfl
    · exact List.forall_mem_map.mpr hbefore

end FirstRefusal

end FirstRefusal

end CanonicalTree
