import CanonicalTree.Proofs.Cursor
import CanonicalTree.Proofs.Descendants
import CanonicalTree.Proofs.Outcomes
import CanonicalTree.Source.Resolve

/-!
# Resolution point by point

Resolving a tree threads one cursor through all its points, but a sound cursor leaves no trace in
the answers. So a tree that can be resolved is resolved point by point: all its offsets are usable,
and each point is completed from the source alone (`resolve_eq_ok`). Nothing else of the tree
changes.
-/

namespace CanonicalTree

/-! ## Changing the positions of a tree -/

mutual

/-- The tree with `f` applied to the position of every node. -/
def Node.mapSpans (f : Span → Span) : Node → Node
  | ⟨kind, token, position, properties, slots⟩ =>
    ⟨kind, token, position.map f, properties, Node.mapSpansInSlots f slots⟩

/-- These slots with `f` applied to the position of every node. -/
def Node.mapSpansInSlots (f : Span → Span) : List (String × Slot) → List (String × Slot)
  | [] => []
  | (name, slot) :: rest => (name, Slot.mapSpans f slot) :: Node.mapSpansInSlots f rest

/-- This slot with `f` applied to the position of every node. -/
def Slot.mapSpans (f : Span → Span) : Slot → Slot
  | .single node => .single (Node.mapSpans f node)
  | .sequence nodes => .sequence (Node.mapSpansInNodes f nodes)

/-- These nodes with `f` applied to the position of every node. -/
def Node.mapSpansInNodes (f : Span → Span) : List Node → List Node
  | [] => []
  | node :: rest => Node.mapSpans f node :: Node.mapSpansInNodes f rest

end

namespace Node

variable (f : Span → Span)

@[simp] theorem kind_mapSpans (node : Node) : (node.mapSpans f).kind = node.kind := by
  cases node
  rfl

@[simp] theorem position_mapSpans (node : Node) :
    (node.mapSpans f).position = node.position.map f := by
  cases node
  rfl

theorem mapSpansInNodes_eq (nodes : List Node) :
    mapSpansInNodes f nodes = nodes.map (mapSpans f) := by
  induction nodes with
  | nil => rfl
  | cons node rest ih => rw [mapSpansInNodes, ih, List.map_cons]

/-- The nodes in slots with other positions are the nodes with other positions. -/
theorem nodes_mapSpansInSlots (slots : List (String × Slot)) :
    ((mapSpansInSlots f slots).flatMap fun entry => entry.2.nodes) =
      (slots.flatMap fun entry => entry.2.nodes).map (mapSpans f) := by
  induction slots with
  | nil => rfl
  | cons entry rest ih =>
    obtain ⟨name, slot⟩ := entry
    rw [mapSpansInSlots, List.flatMap_cons, List.flatMap_cons, List.map_append, ih]
    cases slot with
    | single node => rfl
    | sequence nodes => rw [Slot.mapSpans, mapSpansInNodes_eq, Slot.nodes, Slot.nodes]

theorem children_mapSpans (node : Node) :
    (node.mapSpans f).children = node.children.map (mapSpans f) := by
  cases node
  exact nodes_mapSpansInSlots f _

/-- The nodes of the changed tree are the changed nodes of the tree. -/
theorem descendants_mapSpans (node : Node) :
    (node.mapSpans f).descendants = node.descendants.map (mapSpans f) := by
  induction node using induction_children with
  | step node ih =>
    rw [descendants_eq, descendants_eq node, List.map_cons, children_mapSpans, List.flatMap_map,
      List.map_flatMap]
    congr 1
    rw [List.flatMap_def, List.flatMap_def, List.map_congr_left ih]

/-- Every position of the changed tree is the change of a position. -/
theorem exists_position_of_mapSpans {f : Span → Span} {tree node : Node} {span : Span}
    (hnode : node ∈ (tree.mapSpans f).descendants) (hspan : node.position = some span) :
    ∃ given ∈ tree.descendants, ∃ origin, given.position = some origin ∧ f origin = span := by
  rw [descendants_mapSpans] at hnode
  obtain ⟨given, hgiven, rfl⟩ := List.mem_map.mp hnode
  rw [position_mapSpans] at hspan
  obtain ⟨origin, horigin, hchanged⟩ := Option.map_eq_some_iff.mp hspan
  exact ⟨given, hgiven, origin, horigin, hchanged⟩

end Node

/-! ## Points -/

namespace Source

/-- The location of a usable offset. -/
def location (source : Source) (unit : ColumnUnit) (offset : Nat) : Location :=
  Location.ofCounts ((source.units 0 offset).count lineEnd)
    (unit.count source.encoding (source.slice (source.lineStart offset) offset))

/-- Usable offsets have a location, and others have none. -/
theorem locate_eq_ok_iff {source : Source} {unit : ColumnUnit} {field : String} {offset : Nat}
    {location : Location} :
    source.locate unit field offset = .ok location ↔
      source.Usable offset ∧ source.location unit offset = location := by
  unfold locate
  rw [bind_eq_ok_iff, ← source.check_eq_ok_iff field]
  constructor
  · rintro ⟨_, hcheck, hlocation⟩
    exact ⟨hcheck, pure_eq_ok_iff.mp hlocation⟩
  · rintro ⟨hcheck, hlocation⟩
    exact ⟨(), hcheck, pure_eq_ok_iff.mpr hlocation⟩

end Source

/-- All offsets in a tree are usable. -/
def Node.UsableSpans (source : Source) (tree : Node) : Prop :=
  ∀ node ∈ tree.descendants, ∀ span, node.position = some span →
    ∀ point ∈ span.points, source.Usable point.offset.toNat

namespace Resolver

variable {resolver : Resolver} {source : Source} {cursor next : Cursor}

/-- A point as it is after resolution. -/
def completePoint (resolver : Resolver) (source : Source) (point : Point) : Point :=
  if resolver.trusts point then point
  else
    let location := source.location resolver.unit point.offset.toNat
    { point with line := some location.line, column := some location.column }

/-- Completing a point keeps its offset. -/
@[simp] theorem offset_completePoint (point : Point) :
    (resolver.completePoint source point).offset = point.offset := by
  unfold completePoint
  split
  · rfl
  · rfl

/-- A position as it is after resolution. -/
def complete (resolver : Resolver) (source : Source) (span : Span) : Span :=
  ⟨resolver.completePoint source span.start, span.stop.map (resolver.completePoint source)⟩

/-- A point that is resolved is usable, and the result is the completed point. -/
theorem point_eq_ok {field : String} {point result : Point}
    (hcursor : cursor.Sound source resolver.unit)
    (h : resolver.point source field cursor point = .ok (result, next)) :
    next.Sound source resolver.unit ∧ source.Usable point.offset.toNat ∧
      result = resolver.completePoint source point := by
  unfold Resolver.point at h
  unfold completePoint
  split at h
  · next htrusts =>
    obtain ⟨_, hcheck, hresult⟩ := bind_eq_ok_iff.mp h
    cases pure_eq_ok_iff.mp hresult
    exact ⟨hcursor, (source.check_eq_ok_iff field _).mp hcheck, (if_pos htrusts).symm⟩
  · next htrusts =>
    obtain ⟨hanswer, hsound⟩ := hcursor.locate field point.offset.toNat
    obtain ⟨location, hlocate, hresult⟩ := bind_eq_ok_iff.mp h
    cases pure_eq_ok_iff.mp hresult
    obtain ⟨husable, hlocation⟩ := Source.locate_eq_ok_iff.mp (hanswer.symm.trans hlocate)
    rw [if_neg htrusts, hlocation]
    exact ⟨hsound, husable, rfl⟩

/-- If the start is resolved, it is usable, and nothing else has changed. -/
theorem start_eq_ok {position result : Option Span} (hcursor : cursor.Sound source resolver.unit)
    (h : resolver.start source cursor position = .ok (result, next)) :
    next.Sound source resolver.unit ∧
      (∀ span, position = some span → source.Usable span.start.offset.toNat) ∧
      result = position.map fun span =>
        { span with start := resolver.completePoint source span.start } := by
  unfold Resolver.start at h
  cases position with
  | none =>
    cases h
    exact ⟨hcursor, by simp, rfl⟩
  | some span =>
    obtain ⟨⟨point, after⟩, hpoint, hresult⟩ := bind_eq_ok_iff.mp h
    cases pure_eq_ok_iff.mp hresult
    obtain ⟨hsound, husable, rfl⟩ := point_eq_ok hcursor hpoint
    refine ⟨hsound, ?_, rfl⟩
    intro span hspan
    cases hspan
    exact husable

theorem stop_eq_ok {position result : Option Span} (hcursor : cursor.Sound source resolver.unit)
    (h : resolver.stop source cursor position = .ok (result, next)) :
    next.Sound source resolver.unit ∧
      (∀ span stop, position = some span → span.stop = some stop →
        source.Usable stop.offset.toNat) ∧
      result = position.map fun span =>
        { span with stop := span.stop.map (resolver.completePoint source) } := by
  unfold Resolver.stop at h
  cases position with
  | none =>
    cases h
    exact ⟨hcursor, by simp, rfl⟩
  | some span =>
    obtain ⟨start, stop⟩ := span
    cases stop with
    | none =>
      cases h
      refine ⟨hcursor, ?_, rfl⟩
      intro span stop hspan hstop
      cases hspan
      cases hstop
    | some stop =>
      obtain ⟨⟨point, after⟩, hpoint, hresult⟩ := bind_eq_ok_iff.mp h
      cases pure_eq_ok_iff.mp hresult
      obtain ⟨hsound, husable, rfl⟩ := point_eq_ok hcursor hpoint
      refine ⟨hsound, ?_, rfl⟩
      intro span stop hspan hstop
      cases hspan
      cases hstop
      exact husable

/-! ## Trees -/

/-- Resolving this tree from a sound cursor keeps the cursor sound and completes the tree point by
point, all of whose offsets are usable. -/
def Completes (resolver : Resolver) (source : Source) (tree : Node) : Prop :=
  ∀ cursor result next, cursor.Sound source resolver.unit →
    resolver.node source cursor tree = .ok (result, next) →
      next.Sound source resolver.unit ∧ tree.UsableSpans source ∧
        result = tree.mapSpans (resolver.complete source)

/-- If a sequence is resolved, all its points are usable, and all of them are completed. -/
theorem nodes_eq_ok {children result : List Node} {i : Nat}
    (hchildren : ∀ child ∈ children, resolver.Completes source child)
    (hcursor : cursor.Sound source resolver.unit)
    (h : resolver.nodes source cursor i children = .ok (result, next)) :
    next.Sound source resolver.unit ∧ (∀ child ∈ children, child.UsableSpans source) ∧
      result = Node.mapSpansInNodes (resolver.complete source) children := by
  induction children generalizing cursor i result with
  | nil =>
    cases h
    exact ⟨hcursor, by simp, rfl⟩
  | cons child rest ih =>
    rw [Resolver.nodes] at h
    obtain ⟨⟨child', afterChild⟩, hchild, h⟩ := bind_eq_ok_iff.mp h
    obtain ⟨⟨rest', afterRest⟩, hrest, hresult⟩ := bind_eq_ok_iff.mp h
    cases pure_eq_ok_iff.mp hresult
    obtain ⟨hsound, husable, rfl⟩ :=
      hchildren child List.mem_cons_self _ _ _ hcursor (within_eq_ok_iff.mp hchild)
    obtain ⟨hsound', husable', rfl⟩ :=
      ih (fun child hmem => hchildren child (List.mem_cons_of_mem _ hmem)) hsound hrest
    exact ⟨hsound', List.forall_mem_cons.mpr ⟨husable, husable'⟩, rfl⟩

theorem slot_eq_ok {slot result : Slot}
    (hchildren : ∀ child ∈ slot.nodes, resolver.Completes source child)
    (hcursor : cursor.Sound source resolver.unit)
    (h : resolver.slot source cursor slot = .ok (result, next)) :
    next.Sound source resolver.unit ∧ (∀ child ∈ slot.nodes, child.UsableSpans source) ∧
      result = slot.mapSpans (resolver.complete source) := by
  cases slot with
  | single child =>
    rw [Resolver.slot] at h
    obtain ⟨⟨child', after⟩, hchild, hresult⟩ := bind_eq_ok_iff.mp h
    cases pure_eq_ok_iff.mp hresult
    obtain ⟨hsound, husable, rfl⟩ :=
      hchildren child (List.mem_singleton.mpr rfl) _ _ _ hcursor hchild
    refine ⟨hsound, ?_, rfl⟩
    intro child hmem
    rw [List.mem_singleton.mp hmem]
    exact husable
  | sequence children =>
    rw [Resolver.slot] at h
    obtain ⟨⟨children', after⟩, hnodes, hresult⟩ := bind_eq_ok_iff.mp h
    cases pure_eq_ok_iff.mp hresult
    obtain ⟨hsound, husable, rfl⟩ := nodes_eq_ok hchildren hcursor hnodes
    exact ⟨hsound, husable, rfl⟩

theorem slots_eq_ok {slots result : List (String × Slot)}
    (hchildren : ∀ entry ∈ slots, ∀ child ∈ entry.2.nodes, resolver.Completes source child)
    (hcursor : cursor.Sound source resolver.unit)
    (h : resolver.slots source cursor slots = .ok (result, next)) :
    next.Sound source resolver.unit ∧
      (∀ entry ∈ slots, ∀ child ∈ entry.2.nodes, child.UsableSpans source) ∧
      result = Node.mapSpansInSlots (resolver.complete source) slots := by
  induction slots generalizing cursor result with
  | nil =>
    cases h
    exact ⟨hcursor, by simp, rfl⟩
  | cons entry rest ih =>
    obtain ⟨name, slot⟩ := entry
    rw [Resolver.slots] at h
    obtain ⟨⟨slot', afterSlot⟩, hslot, h⟩ := bind_eq_ok_iff.mp h
    obtain ⟨⟨rest', afterRest⟩, hrest, hresult⟩ := bind_eq_ok_iff.mp h
    cases pure_eq_ok_iff.mp hresult
    obtain ⟨hsound, husable, rfl⟩ :=
      slot_eq_ok (hchildren (name, slot) List.mem_cons_self) hcursor (within_eq_ok_iff.mp hslot)
    obtain ⟨hsound', husable', rfl⟩ :=
      ih (fun entry hmem => hchildren entry (List.mem_cons_of_mem _ hmem)) hsound hrest
    exact ⟨hsound', List.forall_mem_cons.mpr ⟨husable, husable'⟩, rfl⟩

/-- If a tree is resolved, all its points are usable, and all of them are completed. -/
theorem completes (resolver : Resolver) (source : Source) (tree : Node) :
    resolver.Completes source tree := by
  induction tree using Node.induction_children with
  | step tree ih =>
    intro cursor result next hcursor h
    obtain ⟨kind, token, position, properties, slots⟩ := tree
    rw [Resolver.node] at h
    obtain ⟨⟨started, afterStart⟩, hstart, h⟩ := bind_eq_ok_iff.mp h
    obtain ⟨⟨slots', afterSlots⟩, hslots, h⟩ := bind_eq_ok_iff.mp h
    obtain ⟨⟨stopped, afterStop⟩, hstop, hresult⟩ := bind_eq_ok_iff.mp h
    cases pure_eq_ok_iff.mp hresult
    obtain ⟨hsound, husableStart, rfl⟩ := start_eq_ok hcursor hstart
    obtain ⟨hsound', husableSlots, rfl⟩ := slots_eq_ok
      (fun entry hentry child hchild => ih child (Node.mem_children.mpr ⟨entry, hentry, hchild⟩))
      hsound hslots
    obtain ⟨hsound'', husableStop, rfl⟩ := stop_eq_ok hsound' hstop
    refine ⟨hsound'', ?_, ?_⟩
    · refine Node.forall_descendants.mpr ⟨?_, ?_⟩
      · rintro span rfl point hpoint
        rcases List.mem_cons.mp hpoint with rfl | hpoint
        · exact husableStart span rfl
        · exact husableStop _ point rfl (Option.mem_toList.mp hpoint)
      · intro child hchild
        obtain ⟨entry, hentry, hchild⟩ := Node.mem_children.mp hchild
        exact husableSlots entry hentry child hchild
    · cases position <;> rfl

/-- A tree that can be resolved has usable offsets only, and is completed point by point. -/
theorem resolve_eq_ok {tree result : Node} (h : resolver.resolve source tree = .ok result) :
    tree.UsableSpans source ∧ result = tree.mapSpans (resolver.complete source) := by
  unfold resolve at h
  obtain ⟨⟨resolved, after⟩, hnode, hresult⟩ := bind_eq_ok_iff.mp h
  cases pure_eq_ok_iff.mp hresult
  obtain ⟨-, husable, heq⟩ :=
    completes resolver source tree _ _ _ (Cursor.sound_empty source resolver.unit) hnode
  exact ⟨husable, heq⟩

end Resolver

end CanonicalTree
