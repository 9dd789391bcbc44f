import CanonicalTree.Proofs.Alignment
import CanonicalTree.Proofs.Relabelling
import CanonicalTree.Proofs.Visits

/-!
# What filling in overwrites

A resolver that fills in what is missing decides point by point. A point of which both line and
column are known is kept. Any other point is looked up, and then it gets both numbers of its
location, also where one of them was known: a line without a column does not survive, unless it is
the line on which the offset lies. So what is known in a tree is retained if and only if every point
that is known in part only fits its location (`Resolver.resolve_retains_iff`).
-/

namespace CanonicalTree

/-! ## Nodes side by side -/

section MapSpans

variable {f : Span → Span}

theorem map_below {α β : Type} (g : α → β) (segment : Segment) (entries : List (Path × α)) :
    (entries.map (below segment)).map (Prod.map id g) =
      (entries.map (Prod.map id g)).map (below segment) := by
  rw [List.map_map, List.map_map]
  rfl

namespace Node

theorem parts_mapSpansInNodes {nodes : List Node}
    (h : ∀ node ∈ nodes, (node.mapSpans f).parts = node.parts.map (Prod.map id (mapSpans f)))
    (i : Nat) :
    walkNodes (fun node => [node]) (fun _ => []) i (mapSpansInNodes f nodes) =
      (walkNodes (fun node => [node]) (fun _ => []) i nodes).map (Prod.map id (mapSpans f)) := by
  induction nodes generalizing i with
  | nil => rfl
  | cons node rest ih =>
    obtain ⟨hnode, hrest⟩ := List.forall_mem_cons.mp h
    unfold parts at hnode
    rw [mapSpansInNodes, walkNodes, walkNodes, List.map_append, map_below, hnode, ih hrest]

/-- Changing positions in slots changes their nodes, each on its path. -/
theorem parts_mapSpansInSlots {slots : Fields Slot}
    (h : ∀ entry ∈ slots, ∀ node ∈ entry.2.nodes,
      (node.mapSpans f).parts = node.parts.map (Prod.map id (mapSpans f))) :
    walkSlots (fun node => [node]) (fun _ => []) (mapSpansInSlots f slots) =
      (walkSlots (fun node => [node]) (fun _ => []) slots).map (Prod.map id (mapSpans f)) := by
  induction slots with
  | nil => rfl
  | cons entry rest ih =>
    obtain ⟨name, slot⟩ := entry
    obtain ⟨hslot, hrest⟩ := List.forall_mem_cons.mp h
    rw [mapSpansInSlots, walkSlots, walkSlots, List.map_append, map_below, ih hrest]
    congr 2
    cases slot with
    | single node => exact hslot node (List.mem_singleton.mpr rfl)
    | sequence nodes => exact parts_mapSpansInNodes hslot 0

/-- The changed nodes stand where the nodes stood. -/
theorem parts_mapSpans (f : Span → Span) (tree : Node) :
    (tree.mapSpans f).parts = tree.parts.map (Prod.map id (mapSpans f)) := by
  induction tree using induction_children with
  | step tree ih =>
    rw [parts_eq, parts_eq, List.map_cons]
    obtain ⟨kind, token, position, properties, slots⟩ := tree
    congr 1
    refine parts_mapSpansInSlots fun entry hentry child hchild => ?_
    exact ih child (mem_children.mpr ⟨entry, hentry, hchild⟩)

/-- A tree is parallel to itself with other positions if every node is related to itself so. -/
theorem parallel_mapSpans_iff {R : Node → Node → Prop} {tree : Node} :
    tree.Parallel R (tree.mapSpans f) ↔ ∀ node ∈ tree.descendants, R node (node.mapSpans f) := by
  unfold Parallel
  rw [parts_mapSpans, List.forall₂_map_right_iff, List.forall₂_same]
  constructor
  · intro h node hnode
    obtain ⟨path, hpart⟩ := exists_mem_parts.mpr hnode
    exact (h _ hpart).2
  · rintro h ⟨path, node⟩ hpart
    exact ⟨rfl, h node (exists_mem_parts.mp ⟨path, hpart⟩)⟩

/-- Changing positions keeps the forms of slots. -/
theorem forms_mapSpansInSlots (f : Span → Span) (slots : Fields Slot) :
    Slots.forms (mapSpansInSlots f slots) = Slots.forms slots := by
  induction slots with
  | nil => rfl
  | cons entry rest ih =>
    obtain ⟨name, slot⟩ := entry
    unfold Slots.forms at ih ⊢
    rw [mapSpansInSlots, List.map_cons, List.map_cons, ih]
    cases slot with
    | single node => rfl
    | sequence nodes =>
      rw [Slot.mapSpans, mapSpansInNodes_eq, Slot.form, Slot.form, List.length_map]

end Node

end MapSpans

/-- Both spans have an end or neither has, and their points are related. -/
def Span.Related (R : Point → Point → Prop) (span other : Span) : Prop :=
  R span.start other.start ∧ Option.Rel R span.stop other.stop

/-- Apart from what is below them, the nodes differ in the points of their positions at most, and
these are related. -/
structure Node.Repositioned (R : Point → Point → Prop) (node other : Node) : Prop where
  kind_eq : other.kind = node.kind
  token_eq : other.token = node.token
  properties_eq : other.properties = node.properties
  forms_eq : Slots.forms other.slots = Slots.forms node.slots
  position : Option.Rel (Span.Related R) node.position other.position

/-- What is known of the point is known of the other as well. -/
def Point.Retains (point other : Point) : Prop :=
  (∀ line ∈ point.line, other.line = some line) ∧
    ∀ column ∈ point.column, other.column = some column

/-- Nothing that is known of the point is different in the location. -/
def Point.Fits (point : Point) (location : Location) : Prop :=
  (∀ line ∈ point.line, line = location.line) ∧
    ∀ column ∈ point.column, column = location.column

namespace Resolver

variable {resolver : Resolver} {source : Source} {R : Point → Point → Prop}

theorem related_complete_iff {span : Span} :
    Span.Related R span (resolver.complete source span) ↔
      ∀ point ∈ span.points, R point (resolver.completePoint source point) := by
  obtain ⟨start, stop⟩ := span
  cases stop <;> simp [Span.Related, complete, Span.points]

/-- A node is related to itself with completed positions if every point of it is to its completion.
-/
theorem repositioned_iff {node : Node} :
    Node.Repositioned R node (node.mapSpans (resolver.complete source)) ↔
      ∀ span, node.position = some span →
        ∀ point ∈ span.points, R point (resolver.completePoint source point) := by
  obtain ⟨kind, token, position, properties, slots⟩ := node
  constructor
  · rintro ⟨-, -, -, -, hposition⟩ span rfl
    cases hposition with
    | some hspan => exact related_complete_iff.mp hspan
  · intro h
    refine ⟨rfl, rfl, rfl, Node.forms_mapSpansInSlots _ slots, ?_⟩
    cases position with
    | none => exact .none
    | some span => exact .some (related_complete_iff.mpr (h span rfl))

/-- Resolution relates the trees path by path if and only if it relates the visited points. -/
theorem parallel_complete_iff {tree : Node} :
    tree.Parallel (Node.Repositioned R) (tree.mapSpans (resolver.complete source)) ↔
      ∀ visit ∈ tree.visits, R visit.2.point (resolver.completePoint source visit.2.point) := by
  rw [Node.parallel_mapSpans_iff,
    forall_visits (P := fun point => R point (resolver.completePoint source point))]
  simp only [repositioned_iff]

/-- Filling in keeps what is known of a point if that is all, or if it fits the location. -/
theorem retains_completePoint_iff (hpolicy : resolver.policy = .fillMissing) {point : Point} :
    point.Retains (resolver.completePoint source point) ↔
      point.isResolved = true ∨
        point.Fits (source.location resolver.unit point.offset.toNat) := by
  by_cases hresolved : point.isResolved = true
  · have htrusts : resolver.trusts point = true := by
      simp [trusts, hpolicy, hresolved]
    rw [completePoint, if_pos htrusts]
    exact iff_of_true ⟨fun _ h => h, fun _ h => h⟩ (Or.inl hresolved)
  · have htrusts : ¬ resolver.trusts point = true := by
      simp [trusts, hresolved]
    rw [completePoint, if_neg htrusts, or_iff_right hresolved]
    simp only [Point.Retains, Point.Fits, Option.some.injEq, eq_comm]

/-- What is known in the tree is retained if and only if every point is complete or fits its
location. -/
theorem parallel_retains_iff (hpolicy : resolver.policy = .fillMissing) {tree : Node} :
    tree.Parallel (Node.Repositioned Point.Retains) (tree.mapSpans (resolver.complete source)) ↔
      ∀ visit ∈ tree.visits, visit.2.point.isResolved = true ∨
        visit.2.point.Fits (source.location resolver.unit visit.2.point.offset.toNat) := by
  rw [parallel_complete_iff]
  simp only [retains_completePoint_iff hpolicy]

/-- A point of which both numbers or neither are known is complete or fits any location. -/
theorem isResolved_or_fits {point : Point} (h : point.line.isSome = point.column.isSome)
    (location : Location) : point.isResolved = true ∨ point.Fits location := by
  obtain ⟨offset, line, column⟩ := point
  cases line with
  | none =>
    cases column with
    | none => exact Or.inr (by simp [Point.Fits])
    | some column => cases h
  | some line =>
    cases column with
    | none => cases h
    | some column => exact Or.inl rfl

/-- Filling in changes nothing but lines and columns. It keeps a point of which both are known, and
gives any other point both numbers of its location. So what is known in the tree is retained if and
only if every point that is not complete fits its location, and in particular if line and column are
known of the same points. -/
theorem resolve_retains_iff (unit : ColumnUnit) (source : Source) (tree result : Node)
    (h : ({ unit, policy := .fillMissing } : Resolver).resolve source tree = .ok result) :
    tree.Parallel
      (Node.Repositioned (({ unit, policy := .fillMissing } : Resolver).Completed source)) result ∧
    (tree.Parallel (Node.Repositioned Point.Retains) result ↔
      ∀ visit ∈ tree.visits, visit.2.point.isResolved = true ∨
        visit.2.point.Fits (source.location unit visit.2.point.offset.toNat)) ∧
    ((∀ visit ∈ tree.visits, visit.2.point.line.isSome = visit.2.point.column.isSome) →
      tree.Parallel (Node.Repositioned Point.Retains) result) := by
  obtain ⟨husable, rfl⟩ := resolve_eq_ok h
  refine ⟨?_, parallel_retains_iff rfl, fun hpaired => ?_⟩
  · rw [parallel_complete_iff]
    exact fun visit hvisit => completed (usableSpans_iff.mp husable visit hvisit)
  · rw [parallel_retains_iff rfl]
    exact fun visit hvisit => isResolved_or_fits (hpaired visit hvisit) _

/-- A block whose points are known in full, in part, and not at all. -/
def sketchedBlock : Node :=
  { kind := "Block"
    position := some ⟨⟨0, some 7, some 7⟩, some ⟨6, none, some 3⟩⟩
    slots := [("body", .sequence
      [{ kind := "Name", position := some ⟨⟨4, some 3, none⟩, none⟩ },
        { kind := "Name", position := some ⟨⟨2, none, none⟩, none⟩ }])] }

/-- The line and the column that stand alone are right, so they are retained; and so is the point
that is known in full, although it is wrong. -/
theorem resolve_retains_iff_sketchedBlock :
    let result : Node :=
      { kind := "Block"
        position := some ⟨⟨0, some 7, some 7⟩, some ⟨6, some 3, some 3⟩⟩
        slots := [("body", .sequence
          [{ kind := "Name", position := some ⟨⟨4, some 3, some 1⟩, none⟩ },
            { kind := "Name", position := some ⟨⟨2, some 2, some 1⟩, none⟩ }])] }
    ({ unit := .byte, policy := .fillMissing } : Resolver).resolve shortSource sketchedBlock =
        .ok result ∧
      sketchedBlock.Parallel (Node.Repositioned Point.Retains) result := by
  intro result
  have hresolve : ({ unit := .byte, policy := .fillMissing } : Resolver).resolve shortSource
      sketchedBlock = .ok result := by
    cbv
  have hline : Point.Fits ⟨4, some 3, none⟩ (shortSource.location .byte 4) := by
    have hlocation : shortSource.location .byte 4 = ⟨3, 1⟩ := rfl
    simp [Point.Fits, hlocation]
  have hnone : Point.Fits ⟨2, none, none⟩ (shortSource.location .byte 2) := by
    simp [Point.Fits]
  have hcolumn : Point.Fits ⟨6, none, some 3⟩ (shortSource.location .byte 6) := by
    have hlocation : shortSource.location .byte 6 = ⟨3, 3⟩ := rfl
    simp [Point.Fits, hlocation]
  have hfits : ∀ visit ∈ sketchedBlock.visits, visit.2.point.isResolved = true ∨
      visit.2.point.Fits (shortSource.location .byte visit.2.point.offset.toNat) :=
    List.forall_mem_cons.mpr ⟨Or.inl rfl, List.forall_mem_cons.mpr ⟨Or.inr hline,
      List.forall_mem_cons.mpr ⟨Or.inr hnone, List.forall_mem_singleton.mpr (Or.inr hcolumn)⟩⟩⟩
  exact ⟨hresolve, (resolve_retains_iff .byte shortSource _ result hresolve).2.1.mpr hfits⟩

/-- A line that stands alone need not be retained: at offset 2 of `abcdef`, line 9 becomes
line 1. -/
theorem not_retained_of_resolve :
    ¬ ∀ (unit : ColumnUnit) (source : Source) (tree result : Node),
      ({ unit, policy := .fillMissing } : Resolver).resolve source tree = .ok result →
        tree.Parallel (Node.Repositioned Point.Retains) result := by
  intro hretained
  let source : Source := { bytes := #[0x61, 0x62, 0x63, 0x64, 0x65, 0x66] }
  let tree : Node := { kind := "A", position := some ⟨⟨2, some 9, none⟩, none⟩ }
  let result : Node := { kind := "A", position := some ⟨⟨2, some 1, some 3⟩, none⟩ }
  have hresolve : ({ unit := .byte, policy := .fillMissing } : Resolver).resolve source tree =
      .ok result := by
    cbv
  cases hretained .byte source tree result hresolve with
  | cons hroot _ =>
    cases hroot.2.position with
    | some hspan => exact absurd (hspan.1.1 9 rfl) (by decide)

end Resolver

end CanonicalTree
