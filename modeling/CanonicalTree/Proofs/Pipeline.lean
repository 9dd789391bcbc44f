import CanonicalTree.Pipeline
import CanonicalTree.Proofs.Conversion
import CanonicalTree.Proofs.Resolution
import CanonicalTree.Proofs.Rewriting

/-!
# What holds of every node that a pipeline gives

Two properties that no rule can break, whatever the rules are. Every node has a kind, unless it is
a leaf; and every position is one that resolution has completed, taken over as a whole. Conversion
and resolution establish them for the native tree, and both are stable, so that they pass through
the phases.
-/

namespace CanonicalTree

/-! ## Kinds -/

/-- The node has a kind, unless it is nothing but a piece of text. -/
def Node.Labelled (node : Node) : Prop :=
  node.kind ≠ "" ∨ ∃ text, node = .leaf text

/-- Having a kind, or being a leaf, passes from captured nodes to built ones. -/
theorem Node.stable_labelled : Node.Stable Node.Labelled where
  leaf text := Or.inr ⟨text, rfl⟩
  built _ hkind _ := Or.inl hkind
  slots node slots hnode hempty := by
    rcases hnode with hkind | ⟨text, rfl⟩
    · exact Or.inl hkind
    · rw [hempty rfl]
      exact Or.inr ⟨text, rfl⟩

/-! ## Positions -/

/-- The position of the node, if it has one, is that of a node of `tree`. -/
def Node.PlacedIn (tree node : Node) : Prop :=
  ∀ span, node.position = some span → ∃ origin ∈ tree.descendants, origin.position = some span

/-- Having a position of the tree passes from captured nodes to built ones. -/
theorem Node.stable_placedIn (tree : Node) : Node.Stable tree.PlacedIn where
  leaf text span hspan := by cases hspan
  built node _ hdonated span hspan := by
    obtain ⟨donor, hdonor, hposition⟩ := hdonated span hspan
    exact hdonor span hposition
  slots node slots hnode _ := hnode

theorem Node.everywhere_placedIn (tree : Node) : tree.Everywhere tree.PlacedIn :=
  fun part hpart _ hspan => ⟨part, hpart, hspan⟩

/-- A point of the source with its line and column, both counted from one. -/
structure Point.Settled (source : Source) (point : Point) : Prop where
  line : ∃ line, point.line = some line ∧ 1 ≤ line
  column : ∃ column, point.column = some column ∧ 1 ≤ column
  offset_le : point.offset.toNat ≤ source.bytes.size
  aligned : point.offset.toNat % source.encoding.unitWidth = 0

/-- A position whose points are settled and which does not end before it starts. -/
structure Span.Settled (source : Source) (span : Span) : Prop where
  points : ∀ point ∈ span.points, point.Settled source
  start_le_stop : ∀ stop, span.stop = some stop → span.start.offset ≤ stop.offset

theorem one_le_of_ne_zero {n : UInt32} (h : n ≠ 0) : 1 ≤ n := by
  rw [UInt32.le_iff_toNat_le]
  have hn : n.toNat ≠ 0 := fun hzero => h (UInt32.toNat_inj.mp hzero)
  exact Nat.one_le_iff_ne_zero.mpr hn

/-- Counting stops before it would come back to zero. -/
theorem one_le_counted (n : Nat) : 1 ≤ UInt32.ofNat (min (n + 1) (UInt32.size - 1)) := by
  have hlt : min (n + 1) (UInt32.size - 1) < UInt32.size :=
    lt_of_le_of_lt (min_le_right _ _) (by decide)
  have hpos : 1 ≤ min (n + 1) (UInt32.size - 1) := le_min (Nat.le_add_left 1 n) (by decide)
  rw [UInt32.le_iff_toNat_le, UInt32.toNat_ofNat_of_lt' hlt]
  exact hpos

namespace Resolver

variable {resolver : Resolver} {source : Source}

/-- A point that is trusted has a line and a column. -/
theorem resolved_of_trusts {point : Point} (h : resolver.trusts point = true) :
    (∃ line, point.line = some line) ∧ ∃ column, point.column = some column := by
  unfold trusts Point.isResolved at h
  rw [Bool.and_eq_true, Bool.and_eq_true] at h
  exact ⟨Option.isSome_iff_exists.mp h.2.1, Option.isSome_iff_exists.mp h.2.2⟩

/-- Completing a usable point gives a line and a column that count from one. -/
theorem settled_completePoint {point : Point} (hline : point.line ≠ some 0)
    (hcolumn : point.column ≠ some 0) (husable : source.Usable point.offset.toNat) :
    (resolver.completePoint source point).Settled source := by
  by_cases htrusts : resolver.trusts point = true
  · have hpoint : resolver.completePoint source point = point := by
      unfold completePoint
      rw [if_pos htrusts]
    obtain ⟨⟨line, hsomeLine⟩, ⟨column, hsomeColumn⟩⟩ := resolved_of_trusts htrusts
    rw [hpoint]
    refine ⟨⟨line, hsomeLine, ?_⟩, ⟨column, hsomeColumn, ?_⟩, husable.1, husable.2⟩
    · exact one_le_of_ne_zero fun hzero => hline (by rw [hsomeLine, hzero])
    · exact one_le_of_ne_zero fun hzero => hcolumn (by rw [hsomeColumn, hzero])
  · unfold completePoint
    rw [if_neg htrusts]
    exact ⟨⟨_, rfl, one_le_counted _⟩, ⟨_, rfl, one_le_counted _⟩, husable.1, husable.2⟩

theorem points_complete (span : Span) :
    (resolver.complete source span).points = span.points.map (resolver.completePoint source) := by
  obtain ⟨start, stop⟩ := span
  cases stop <;> rfl

/-- Completing a span whose offsets are usable settles it. -/
theorem settled_complete {span : Span} (hspan : span.Ordered)
    (husable : ∀ point ∈ span.points, source.Usable point.offset.toNat) :
    (resolver.complete source span).Settled source := by
  constructor
  · intro completed hcompleted
    rw [points_complete] at hcompleted
    obtain ⟨point, hpoint, rfl⟩ := List.mem_map.mp hcompleted
    exact settled_completePoint (hspan.line_ne_zero point hpoint)
      (hspan.column_ne_zero point hpoint) (husable point hpoint)
  · intro completed hcompleted
    obtain ⟨stop, hstop, rfl⟩ := Option.map_eq_some_iff.mp hcompleted
    rw [offset_completePoint]
    exact (offset_completePoint span.start).symm ▸ hspan.start_le_stop stop hstop

end Resolver

namespace Pipeline

variable {pipeline : Pipeline} {raw : Json} {source : Source}

/-- The native tree is the converted one with its positions completed. -/
theorem native_eq_ok {native : Node} (h : pipeline.run .native raw source = .ok native) :
    ∃ tree, pipeline.schema.convert raw = .ok tree ∧ tree.UsableSpans source ∧
      native = tree.mapSpans (pipeline.resolver.complete source) := by
  obtain ⟨resolved, hnative, hpure⟩ := bind_eq_ok_iff.mp h
  cases pure_eq_ok_iff.mp hpure
  obtain ⟨tree, htree, hresolve⟩ := bind_eq_ok_iff.mp hnative
  exact ⟨tree, htree, Resolver.resolve_eq_ok hresolve⟩

/-- Behind the native tree, preprocessing is all that is left to do. -/
theorem run_preprocessed {native : Node} (h : pipeline.run .native raw source = .ok native) :
    pipeline.run .preprocessed raw source = pipeline.preprocess.apply native := by
  obtain ⟨resolved, hnative, hpure⟩ := bind_eq_ok_iff.mp h
  cases pure_eq_ok_iff.mp hpure
  rw [run, hnative]
  rfl

/-- Behind the native tree, the two phases are all that is left to do. -/
theorem run_semantic {native : Node} (h : pipeline.run .native raw source = .ok native) :
    pipeline.run .semantic raw source =
      pipeline.preprocess.apply native >>= pipeline.normalize.apply := by
  obtain ⟨resolved, hnative, hpure⟩ := bind_eq_ok_iff.mp h
  cases pure_eq_ok_iff.mp hpure
  rw [run, hnative]
  rfl

/-- A run goes through the native tree, and what is stable and holds of its nodes holds of the nodes
of the result. -/
theorem run_eq_ok {mode : Mode} {result : Node} (h : pipeline.run mode raw source = .ok result) :
    ∃ native, pipeline.run .native raw source = .ok native ∧ (mode = .native → native = result) ∧
      ∀ P, Node.Stable P → native.Everywhere P → result.Everywhere P := by
  unfold Pipeline.run at h
  obtain ⟨native, hnative, h⟩ := bind_eq_ok_iff.mp h
  refine ⟨native, bind_eq_ok_iff.mpr ⟨native, hnative, rfl⟩, ?_⟩
  -- the modes differ in how many phases come after the native tree
  cases mode with
  | native =>
    cases pure_eq_ok_iff.mp h
    exact ⟨fun _ => rfl, fun _ _ hall => hall⟩
  | preprocessed =>
    exact ⟨nofun, fun _ hP hall => Phase.apply_everywhere hP hall h⟩
  | semantic =>
    obtain ⟨preprocessed, hpreprocess, hnormalize⟩ := bind_eq_ok_iff.mp h
    refine ⟨nofun, fun _ hP hall => ?_⟩
    exact Phase.apply_everywhere hP (Phase.apply_everywhere hP hall hpreprocess) hnormalize

/-- Every node of a native tree has a kind. -/
theorem native_kind_ne_empty {native : Node} (h : pipeline.run .native raw source = .ok native) :
    ∀ part ∈ native.descendants, part.kind ≠ "" := by
  obtain ⟨tree, htree, -, rfl⟩ := native_eq_ok h
  intro part hpart
  rw [Node.descendants_mapSpans] at hpart
  obtain ⟨converted, hconverted, rfl⟩ := List.mem_map.mp hpart
  rw [Node.kind_mapSpans]
  exact (Schema.convert_eq_ok htree converted hconverted).1

/-- Every position in a native tree is settled. -/
theorem native_position_settled {native : Node}
    (h : pipeline.run .native raw source = .ok native) :
    ∀ part ∈ native.descendants, ∀ span, part.position = some span → span.Settled source := by
  obtain ⟨tree, htree, husable, rfl⟩ := native_eq_ok h
  intro part hpart span hspan
  obtain ⟨converted, hconverted, given, hgiven, rfl⟩ :=
    Node.exists_position_of_mapSpans hpart hspan
  have hordered := (Schema.convert_eq_ok htree converted hconverted).2 given hgiven
  exact Resolver.settled_complete hordered (husable converted hconverted given hgiven)

/-! ## A run -/

/-- Identifiers are put into a wrapper, beside a leaf that names their kind. -/
def wrapping : Pipeline where
  schema := { keys := { offset := some "start", endOffset := some "end" } }
  preprocess :=
    { rules :=
        [{ pattern := { kind := .only "id", bind := some "it" }
           action := .build
             { kind := some (.literal "wrap")
               slots := [.set "name" (.leaf .matchedKind), .set "inner" (.captured "it")] } }] }

def identifier : Json :=
  .obj [("kind", .str "id"), ("start", .num (.whole 2)), ("end", .num (.whole 4))]

/-- A line end and the letter `b`. -/
def identifierSource : Source :=
  ⟨#[0x0A, 0, 0x62, 0], .utf16LE⟩

def identifierNode : Node :=
  { kind := "id", position := some ⟨⟨2, some 2, some 1⟩, some ⟨4, some 2, some 3⟩⟩ }

def wrappedNode : Node :=
  { kind := "wrap"
    position := identifierNode.position
    slots := [("name", .single (.leaf "id")), ("inner", .single identifierNode)] }

theorem wrapping_native :
    wrapping.run .native identifier identifierSource = .ok identifierNode := rfl

theorem wrapping_semantic :
    wrapping.run .semantic identifier identifierSource = .ok wrappedNode := rfl

/-! ## Every run -/

/-- No phase makes a node without a kind, leaves apart: not from a tree without such nodes, and so
not from a converted tree, in which every node has a kind. -/
theorem run_labelled :
    (∀ (phase : Phase) (tree result : Node), (∀ part ∈ tree.descendants, part.Labelled) →
      phase.apply tree = .ok result → ∀ part ∈ result.descendants, part.Labelled) ∧
    (∀ (schema : Schema) (raw : Json) (tree : Node), schema.convert raw = .ok tree →
      ∀ part ∈ tree.descendants, part.kind ≠ "") ∧
    (∀ (resolver : Resolver) (source : Source) (tree result : Node),
      resolver.resolve source tree = .ok result →
        result.descendants.map Node.kind = tree.descendants.map Node.kind) ∧
    (∀ (pipeline : Pipeline) (mode : Mode) (raw : Json) (source : Source) (result : Node),
      pipeline.run mode raw source = .ok result →
        (∀ part ∈ result.descendants, part.Labelled) ∧
        (mode = .native → ∀ part ∈ result.descendants, part.kind ≠ "")) := by
  refine ⟨?_, ?_, ?_, ?_⟩
  · intro phase tree result htree happly
    exact Phase.apply_everywhere Node.stable_labelled htree happly
  · intro schema raw tree hconvert part hpart
    exact (Schema.convert_eq_ok hconvert part hpart).1
  · intro resolver source tree result hresolve
    obtain ⟨-, rfl⟩ := Resolver.resolve_eq_ok hresolve
    rw [Node.descendants_mapSpans, List.map_map]
    exact List.map_congr_left fun part _ => Node.kind_mapSpans _ part
  · intro pipeline mode raw source result hrun
    obtain ⟨native, hnative, hsame, hstable⟩ := run_eq_ok hrun
    have hkind := native_kind_ne_empty hnative
    refine ⟨hstable _ Node.stable_labelled fun part hpart => Or.inl (hkind part hpart), ?_⟩
    intro hmode
    rw [← hsame hmode]
    exact hkind

/-- The leaf that a rule makes has no kind, and the nodes beside it and above it have one. -/
theorem run_labelled_wrapping :
    wrapping.run .semantic identifier identifierSource = .ok wrappedNode ∧
    .leaf "id" ∈ wrappedNode.descendants ∧
    (∀ part ∈ identifierNode.descendants, part.kind ≠ "") ∧
    (∀ part ∈ wrappedNode.descendants, part.Labelled) := by
  obtain ⟨-, -, -, hrun⟩ := run_labelled
  have hnative := (hrun _ _ _ _ _ wrapping_native).2 rfl
  have hsemantic := (hrun _ _ _ _ _ wrapping_semantic).1
  refine ⟨wrapping_semantic, ?_, hnative, hsemantic⟩
  exact Node.mem_descendants_of_mem_children List.mem_cons_self

/-- Positions are never invented: a phase only hands on whole positions of the tree it is given, and
so every position that a pipeline gives is one of the native tree, where all are settled. -/
theorem run_position :
    (∀ (phase : Phase) (tree result : Node), phase.apply tree = .ok result →
      ∀ part ∈ result.descendants, ∀ span, part.position = some span →
        ∃ origin ∈ tree.descendants, origin.position = some span) ∧
    (∀ (pipeline : Pipeline) (mode : Mode) (raw : Json) (source : Source) (result : Node),
      pipeline.run mode raw source = .ok result →
        ∃ native, pipeline.run .native raw source = .ok native ∧
          ∀ part ∈ result.descendants, ∀ span, part.position = some span →
            (∃ origin ∈ native.descendants, origin.position = some span) ∧
            span.Settled source) := by
  refine ⟨?_, ?_⟩
  · intro phase tree result happly
    exact Phase.apply_everywhere tree.stable_placedIn tree.everywhere_placedIn happly
  · intro pipeline mode raw source result hrun
    obtain ⟨native, hnative, -, hstable⟩ := run_eq_ok hrun
    refine ⟨native, hnative, fun part hpart span hspan => ?_⟩
    have hplaced := hstable _ native.stable_placedIn native.everywhere_placedIn
    obtain ⟨origin, horigin, hposition⟩ := hplaced part hpart span hspan
    refine ⟨⟨origin, horigin, hposition⟩, ?_⟩
    exact native_position_settled hnative origin horigin span hposition

/-- The wrapper takes over the position of the identifier, which was completed from two offsets. -/
theorem run_position_wrapping :
    wrapping.run .semantic identifier identifierSource = .ok wrappedNode ∧
    ∃ span, wrappedNode.position = some span ∧
      (∃ origin ∈ identifierNode.descendants, origin.position = some span) ∧
      span.Settled identifierSource := by
  obtain ⟨happly, hrun⟩ := run_position
  obtain ⟨native, -, hsettled⟩ := hrun _ _ _ _ _ wrapping_semantic
  have hself := wrappedNode.self_mem_descendants
  have hwrap : wrapping.preprocess.apply identifierNode = .ok wrappedNode := rfl
  refine ⟨wrapping_semantic, _, rfl, ?_, (hsettled _ hself _ rfl).2⟩
  exact happly _ _ _ hwrap _ hself _ rfl

end Pipeline

end CanonicalTree
