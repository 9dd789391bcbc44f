import CanonicalTree.Proofs.Resolution
import CanonicalTree.Proofs.Walk

/-!
# The order of resolution

A tree is resolved in one walk: the start of a node, its children, its end. Whether an offset is
usable depends on the source alone, so the outcome can be told from the list of visited points
(`Node.visits`): if all their offsets are usable the walk succeeds, and otherwise it stops at the
first that is not, and says so under the path of its node.
-/

namespace CanonicalTree

/-- One end of a position, with the name under which it is reported. -/
structure Endpoint where
  name : String
  point : Point

/-- Where a node starts, if that is known. -/
def Node.starts (node : Node) : List Endpoint :=
  node.position.toList.map fun span => ⟨"start", span.start⟩

/-- Where a node ends, if that is known. -/
def Node.stops (node : Node) : List Endpoint :=
  (node.position.bind Span.stop).toList.map fun stop => ⟨"end", stop⟩

/-- The points of a tree in the order in which they are resolved, with the paths of their nodes. -/
def Node.visits (tree : Node) : List (Path × Endpoint) :=
  tree.walk Node.starts Node.stops

namespace Source

/-- The offset of the visited point is usable. -/
def Admits (source : Source) (visit : Path × Endpoint) : Prop :=
  source.Usable visit.2.point.offset.toNat

/-- What is said about a visited point whose offset is not usable. -/
def complaint (source : Source) (visit : Path × Endpoint) : Failure where
  path := visit.1
  cause :=
    let offset := visit.2.point.offset.toNat
    if source.bytes.size < offset then .offsetOutOfRange offset source.bytes.size
    else .invalidPosition .position visit.2.name <|
      "offset " ++ toString offset ++ " splits a " ++ toString source.encoding.unitWidth ++
        "-byte code unit"

/-- An offset that is not admitted is refused with the complaint about it. -/
theorem check_eq_error {source : Source} {endpoint : Endpoint}
    (h : ¬ source.Admits (Path.root, endpoint)) :
    source.check endpoint.name endpoint.point.offset.toNat =
      .error (source.complaint (Path.root, endpoint)) := by
  unfold check complaint
  unfold Admits Usable at h
  by_cases hrange : source.bytes.size < endpoint.point.offset.toNat
  · simp only [if_pos hrange]
    rfl
  · have haligned : ¬ endpoint.point.offset.toNat % source.encoding.unitWidth = 0 := by
      intro haligned
      exact h ⟨Nat.le_of_not_lt hrange, haligned⟩
    simp only [if_neg hrange, if_neg haligned]
    rfl

end Source

/-! ## One outcome for a list of visits -/

variable {β γ : Type} {source : Source} {unit : ColumnUnit}

/-- The outcome reports the first of the visits that is refused; if none is, it hands on a sound
cursor. -/
def Reports (source : Source) (unit : ColumnUnit) (visits : List (Path × Endpoint)) :
    Except Failure (β × Cursor) → Prop
  | .ok (_, next) => next.Sound source unit ∧ ∀ visit ∈ visits, source.Admits visit
  | .error failure => ∃ before visit after, visits = before ++ visit :: after ∧
      (∀ earlier ∈ before, source.Admits earlier) ∧ ¬ source.Admits visit ∧
      failure = source.complaint visit

namespace Reports

variable {visits others : List (Path × Endpoint)} {outcome : Except Failure (β × Cursor)}

theorem nothing {result : β} {next : Cursor} (h : next.Sound source unit) :
    Reports source unit [] (.ok (result, next)) :=
  ⟨h, by simp⟩

/-- After visits that are all admitted, the outcome is that of the visits that follow. -/
theorem bind {step : β × Cursor → Except Failure (γ × Cursor)}
    (h : Reports source unit visits outcome)
    (hstep : ∀ result next, outcome = .ok (result, next) → next.Sound source unit →
      Reports source unit others (step (result, next))) :
    Reports source unit (visits ++ others) (outcome >>= step) := by
  cases outcome with
  | error failure =>
    obtain ⟨before, visit, after, rfl, hbefore, hvisit, hfailure⟩ := h
    exact ⟨before, visit, after ++ others, by simp, hbefore, hvisit, hfailure⟩
  | ok found =>
    obtain ⟨result, next⟩ := found
    obtain ⟨hsound, hvisits⟩ := h
    have hothers := hstep result next rfl hsound
    show Reports source unit (visits ++ others) (step (result, next))
    cases hlast : step (result, next) with
    | ok last =>
      rw [hlast] at hothers
      exact ⟨hothers.1, List.forall_mem_append.mpr ⟨hvisits, hothers.2⟩⟩
    | error failure =>
      rw [hlast] at hothers
      obtain ⟨before, visit, after, rfl, hbefore, hvisit, hfailure⟩ := hothers
      exact ⟨visits ++ before, visit, after, by simp, List.forall_mem_append.mpr ⟨hvisits, hbefore⟩,
        hvisit, hfailure⟩

/-- What follows without a visit does not change what is reported. -/
theorem map {step : β × Cursor → Except Failure (γ × Cursor)}
    (h : Reports source unit visits outcome)
    (hstep : ∀ result next, ∃ last, step (result, next) = .ok (last, next)) :
    Reports source unit visits (outcome >>= step) := by
  rw [← List.append_nil visits]
  refine h.bind fun result next _ hsound => ?_
  obtain ⟨last, hlast⟩ := hstep result next
  rw [hlast]
  exact nothing hsound

/-- Seen from one step further out, visits and failures have the longer path. -/
theorem within (segment : Segment) (h : Reports source unit visits outcome) :
    Reports source unit (visits.map (below segment)) (CanonicalTree.within segment outcome) := by
  cases outcome with
  | ok found => exact ⟨h.1, List.forall_mem_map.mpr h.2⟩
  | error failure =>
    obtain ⟨before, visit, after, rfl, hbefore, hvisit, rfl⟩ := h
    refine ⟨before.map (below segment), below segment visit, after.map (below segment), ?_, ?_,
      hvisit, rfl⟩
    · rw [List.map_append, List.map_cons]
    · exact List.forall_mem_map.mpr hbefore

end Reports

namespace Resolver

variable {resolver : Resolver} {cursor : Cursor}

/-- Resolving a point reports whether it is admitted. -/
theorem point_reports (hcursor : cursor.Sound source resolver.unit) (endpoint : Endpoint) :
    Reports source resolver.unit [(Path.root, endpoint)]
      (resolver.point source endpoint.name cursor endpoint.point) := by
  obtain ⟨hanswer, hnext⟩ := hcursor.locate endpoint.name endpoint.point.offset.toNat
  unfold Resolver.point
  by_cases hadmits : source.Admits (Path.root, endpoint)
  · have hall : ∀ visit ∈ [(Path.root, endpoint)], source.Admits visit := by
      simpa using hadmits
    split
    · rw [(source.check_eq_ok_iff endpoint.name _).mpr hadmits]
      exact ⟨hcursor, hall⟩
    · simp only [hanswer, Source.locate_eq_ok_iff.mpr ⟨hadmits, rfl⟩]
      exact ⟨hnext, hall⟩
  · have hcheck := Source.check_eq_error hadmits
    split
    · rw [hcheck]
      exact ⟨[], _, [], rfl, by simp, hadmits, rfl⟩
    · simp only [hanswer, Source.locate, hcheck]
      exact ⟨[], _, [], rfl, by simp, hadmits, rfl⟩

/-- Resolving a start reports whether it is admitted. -/
theorem start_reports (hcursor : cursor.Sound source resolver.unit) (node : Node) :
    Reports source resolver.unit (node.starts.map (Path.root, ·))
      (resolver.start source cursor node.position) := by
  unfold Resolver.start Node.starts
  cases node.position with
  | none => exact .nothing hcursor
  | some span => exact (point_reports hcursor ⟨"start", span.start⟩).map fun _ _ => ⟨_, rfl⟩

/-- The end of a position is reported whatever has become of its start. -/
theorem stop_reports (hcursor : cursor.Sound source resolver.unit) {node : Node}
    {position : Option Span} (hstop : position.bind Span.stop = node.position.bind Span.stop) :
    Reports source resolver.unit (node.stops.map (Path.root, ·))
      (resolver.stop source cursor position) := by
  unfold Resolver.stop Node.stops
  rw [← hstop]
  cases position with
  | none => exact .nothing hcursor
  | some span =>
    obtain ⟨start, stop⟩ := span
    cases stop with
    | none => exact .nothing hcursor
    | some stop => exact (point_reports hcursor ⟨"end", stop⟩).map fun _ _ => ⟨_, rfl⟩

/-! ## Trees -/

/-- Resolving this tree from a sound cursor reports the first of its points that is refused. -/
def ReportsAll (resolver : Resolver) (source : Source) (tree : Node) : Prop :=
  ∀ cursor : Cursor, cursor.Sound source resolver.unit →
    Reports source resolver.unit tree.visits (resolver.node source cursor tree)

/-- Resolving a sequence reports the first of its points that is refused. -/
theorem nodes_report {children : List Node} {i : Nat}
    (h : ∀ child ∈ children, resolver.ReportsAll source child)
    (hcursor : cursor.Sound source resolver.unit) :
    Reports source resolver.unit (Node.walkNodes Node.starts Node.stops i children)
      (resolver.nodes source cursor i children) := by
  induction children generalizing cursor i with
  | nil => exact .nothing hcursor
  | cons child rest ih =>
    obtain ⟨hchild, hrest⟩ := List.forall_mem_cons.mp h
    rw [Resolver.nodes, Node.walkNodes]
    refine ((hchild cursor hcursor).within (.index i)).bind fun _ next _ hnext => ?_
    exact (ih hrest hnext).map fun _ _ => ⟨_, rfl⟩

theorem slot_reports {slot : Slot}
    (h : ∀ child ∈ slot.nodes, resolver.ReportsAll source child)
    (hcursor : cursor.Sound source resolver.unit) :
    Reports source resolver.unit (slot.walk Node.starts Node.stops)
      (resolver.slot source cursor slot) := by
  cases slot with
  | single child =>
    rw [Resolver.slot, Slot.walk]
    exact (h child (List.mem_singleton.mpr rfl) cursor hcursor).map fun _ _ => ⟨_, rfl⟩
  | sequence children =>
    rw [Resolver.slot, Slot.walk]
    exact (nodes_report h hcursor).map fun _ _ => ⟨_, rfl⟩

theorem slots_report {slots : List (String × Slot)}
    (h : ∀ entry ∈ slots, ∀ child ∈ entry.2.nodes, resolver.ReportsAll source child)
    (hcursor : cursor.Sound source resolver.unit) :
    Reports source resolver.unit (Node.walkSlots Node.starts Node.stops slots)
      (resolver.slots source cursor slots) := by
  induction slots generalizing cursor with
  | nil => exact .nothing hcursor
  | cons entry rest ih =>
    obtain ⟨name, slot⟩ := entry
    obtain ⟨hslot, hrest⟩ := List.forall_mem_cons.mp h
    rw [Resolver.slots, Node.walkSlots]
    refine ((slot_reports hslot hcursor).within (.field name)).bind fun _ next _ hnext => ?_
    exact (ih hrest hnext).map fun _ _ => ⟨_, rfl⟩

/-- Resolving any tree reports the first of its points that is refused. -/
theorem reportsAll (resolver : Resolver) (source : Source) (tree : Node) :
    resolver.ReportsAll source tree := by
  induction tree using Node.induction_children with
  | step tree ih =>
    intro cursor hcursor
    have hslots : ∀ entry ∈ tree.slots, ∀ child ∈ entry.2.nodes,
        resolver.ReportsAll source child :=
      fun entry hentry child hchild => ih child (Node.mem_children.mpr ⟨entry, hentry, hchild⟩)
    have hstart := start_reports hcursor tree
    rw [Node.visits, Node.walk_eq, List.append_assoc]
    obtain ⟨kind, token, position, properties, slots⟩ := tree
    rw [Resolver.node]
    refine hstart.bind fun started next hstarted hnext => ?_
    refine (slots_report hslots hnext).bind fun _ after _ hafter => ?_
    refine (stop_reports hafter ?_).map fun _ _ => ⟨_, rfl⟩
    -- the end is looked up in the position whose start has been completed
    obtain ⟨-, -, rfl⟩ := start_eq_ok hcursor hstarted
    cases position <;> rfl

/-- The ends of a node are the points of its position. -/
theorem forall_endpoint {P : Point → Prop} {node : Node} :
    (∀ endpoint, endpoint ∈ node.starts ∨ endpoint ∈ node.stops → P endpoint.point) ↔
      ∀ span, node.position = some span → ∀ point ∈ span.points, P point := by
  unfold Node.starts Node.stops
  cases node.position with
  | none => simp
  | some span =>
    obtain ⟨start, stop⟩ := span
    cases stop <;> simp [Span.points]

/-- The visited points are those of the positions in the tree. -/
theorem forall_visits {P : Point → Prop} {tree : Node} :
    (∀ visit ∈ tree.visits, P visit.2.point) ↔
      ∀ node ∈ tree.descendants, ∀ span, node.position = some span →
        ∀ point ∈ span.points, P point := by
  simp only [← forall_endpoint]
  constructor
  · intro h node hnode endpoint hendpoint
    obtain ⟨path, hvisit⟩ := Node.exists_mem_walk.mpr ⟨node, hnode, hendpoint⟩
    exact h _ hvisit
  · rintro h ⟨path, endpoint⟩ hvisit
    obtain ⟨node, hnode, hendpoint⟩ := Node.exists_mem_walk.mp ⟨path, hvisit⟩
    exact h node hnode endpoint hendpoint

/-- All offsets of a tree are usable if all visited points are admitted. -/
theorem usableSpans_iff {tree : Node} :
    tree.UsableSpans source ↔ ∀ visit ∈ tree.visits, source.Admits visit :=
  forall_visits.symm

/-- What resolution makes of a point: the offset stays, a point that is trusted stays as it is, and
any other gets the line and the column of its offset. -/
structure Completed (resolver : Resolver) (source : Source) (point result : Point) : Prop where
  offset_eq : result.offset = point.offset
  kept : resolver.policy = .fillMissing → point.isResolved = true → result = point
  located : resolver.policy = .recompute ∨ point.isResolved = false →
    ∀ field, ∃ location, source.locate resolver.unit field point.offset.toNat = .ok location ∧
      result.line = some location.line ∧ result.column = some location.column

/-- A usable point is completed as its location says. -/
theorem completed {point : Point} (h : source.Usable point.offset.toNat) :
    resolver.Completed source point (resolver.completePoint source point) := by
  refine ⟨offset_completePoint point, fun hpolicy hresolved => ?_, fun hlooked field => ?_⟩
  · have htrusts : resolver.trusts point = true := by
      simp [trusts, hpolicy, hresolved]
    rw [completePoint, if_pos htrusts]
  · have htrusts : ¬ resolver.trusts point = true := by
      rcases hlooked with hpolicy | hresolved
      · simp [trusts, hpolicy]
      · simp [trusts, hresolved]
    rw [completePoint, if_neg htrusts]
    exact ⟨_, Source.locate_eq_ok_iff.mpr ⟨h, rfl⟩, rfl, rfl⟩

/-- A tree can be resolved if and only if all its offsets are usable, whatever columns count and
whichever points are looked up. The result then differs in lines and columns only. Otherwise the
first point in the order of the walk whose offset is not usable is reported, and the path of the
failure leads to the node that has it. -/
theorem resolve_outcome (resolver : Resolver) (source : Source) (tree : Node) :
    ((∃ result, resolver.resolve source tree = .ok result) ↔ tree.UsableSpans source) ∧
    (∀ result, resolver.resolve source tree = .ok result →
      result = tree.mapSpans (resolver.complete source) ∧
      ∀ visit ∈ tree.visits, resolver.Completed source visit.2.point
        (resolver.completePoint source visit.2.point)) ∧
    ∀ failure, resolver.resolve source tree = .error failure →
      ∃ before visit after, tree.visits = before ++ visit :: after ∧
        (∀ earlier ∈ before, source.Admits earlier) ∧ ¬ source.Admits visit ∧
        failure = source.complaint visit ∧
        (tree.WellFormed → ∃ node, tree.follow failure.path = some node ∧
          (visit.2 ∈ node.starts ∨ visit.2 ∈ node.stops)) := by
  have hreports := reportsAll resolver source tree {} (Cursor.sound_empty source resolver.unit)
  refine ⟨⟨?_, ?_⟩, ?_, ?_⟩
  · rintro ⟨result, hresult⟩
    exact (resolve_eq_ok hresult).1
  · intro husable
    unfold resolve
    cases hnode : resolver.node source {} tree with
    | ok found => exact ⟨found.1, rfl⟩
    | error failure =>
      rw [hnode] at hreports
      obtain ⟨before, visit, after, hvisits, -, hrefused, -⟩ := hreports
      have hvisit : visit ∈ tree.visits := hvisits ▸ List.mem_append_cons_self
      exact absurd (usableSpans_iff.mp husable visit hvisit) hrefused
  · intro result hresult
    obtain ⟨husable, heq⟩ := resolve_eq_ok hresult
    exact ⟨heq, fun visit hvisit => completed (usableSpans_iff.mp husable visit hvisit)⟩
  · intro failure hfailure
    unfold resolve at hfailure
    cases hnode : resolver.node source {} tree with
    | ok found =>
      rw [hnode] at hfailure
      cases hfailure
    | error found =>
      rw [hnode] at hfailure hreports
      cases hfailure
      obtain ⟨before, visit, after, hvisits, hbefore, hrefused, rfl⟩ := hreports
      have hvisit : visit ∈ tree.visits := hvisits ▸ List.mem_append_cons_self
      exact ⟨before, visit, after, hvisits, hbefore, hrefused, rfl,
        fun hwell => Node.exists_follow hwell hvisit⟩

/-- A block that ends behind the end of the source, as does the last node in it. -/
def overlongBlock : Node :=
  { kind := "Block"
    position := some { start := { offset := 0 }, stop := some { offset := 7 } }
    slots := [("body", .sequence
      [{ kind := "Name", position := some { start := { offset := 4, line := some 2 } } },
        { kind := "Name", position := some ⟨{ offset := 2 }, some { offset := 9 }⟩ }])] }

/-- A source of six bytes. -/
def shortSource : Source :=
  { bytes := #[0x61, 0x0A, 0x62, 0x0A, 0x63, 0x64] }

/-- The node in the block is reported, not the block: its end is visited first. -/
theorem resolve_outcome_overlongBlock :
    let failure : Failure := ⟨[.field "body", .index 1], .offsetOutOfRange 9 6⟩
    ({} : Resolver).resolve shortSource overlongBlock = .error failure ∧
      ¬ overlongBlock.UsableSpans shortSource ∧
      ∃ visit ∈ overlongBlock.visits, failure = shortSource.complaint visit ∧
        ∃ node, overlongBlock.follow failure.path = some node ∧
          (visit.2 ∈ node.starts ∨ visit.2 ∈ node.stops) := by
  intro failure
  have hresolve : ({} : Resolver).resolve shortSource overlongBlock = .error failure := rfl
  have hwell : overlongBlock.WellFormed := by
    simp [overlongBlock, Node.WellFormed, Node.WellFormedSlots, Slot.WellFormed,
      Node.WellFormedNodes, Fields.Distinct]
  obtain ⟨hiff, -, hfailure⟩ := resolve_outcome {} shortSource overlongBlock
  obtain ⟨before, visit, after, hvisits, -, -, hcomplaint, hfollow⟩ := hfailure failure hresolve
  refine ⟨hresolve, ?_, visit, hvisits ▸ List.mem_append_cons_self, hcomplaint, hfollow hwell⟩
  rw [← hiff]
  rintro ⟨result, hresult⟩
  rw [hresolve] at hresult
  cases hresult

end Resolver

end CanonicalTree
