import CanonicalTree.Proofs.Pipeline
import CanonicalTree.Proofs.Relabelling
import Mathlib

/-!
# Runs with different sources

A resolver that looks up every point gives all points with the same offset the same line and column.
Two of them, with different sources, therefore give trees that differ by an injective change of
positions: at every offset, the two lines and columns change places. Phases commute with such a
change, so what the rules make of the two trees is the same up to lines and columns
(`Pipeline.run_independent`).
-/

namespace CanonicalTree

/-! ## Exchanging lines and columns -/

namespace Node

mutual

/-- Changing positions twice is changing them once, by both changes. -/
theorem mapSpans_mapSpans (f g : Span → Span) : ∀ node : Node,
    (node.mapSpans g).mapSpans f = node.mapSpans (f ∘ g)
  | ⟨kind, token, position, properties, slots⟩ => by
    rw [mapSpans, mapSpans, mapSpans, Option.map_map, mapSpansInSlots_mapSpans f g slots]

theorem mapSpansInSlots_mapSpans (f g : Span → Span) : ∀ slots : List (String × Slot),
    mapSpansInSlots f (mapSpansInSlots g slots) = mapSpansInSlots (f ∘ g) slots
  | [] => rfl
  | (name, slot) :: rest => by
    rw [mapSpansInSlots, mapSpansInSlots, mapSpansInSlots, mapSpansInSlot_mapSpans f g slot,
      mapSpansInSlots_mapSpans f g rest]

theorem mapSpansInSlot_mapSpans (f g : Span → Span) : ∀ slot : Slot,
    (slot.mapSpans g).mapSpans f = slot.mapSpans (f ∘ g)
  | .single node => by
    rw [Slot.mapSpans, Slot.mapSpans, Slot.mapSpans, mapSpans_mapSpans f g node]
  | .sequence nodes => by
    rw [Slot.mapSpans, Slot.mapSpans, Slot.mapSpans, mapSpansInNodes_mapSpans f g nodes]

theorem mapSpansInNodes_mapSpans (f g : Span → Span) : ∀ nodes : List Node,
    mapSpansInNodes f (mapSpansInNodes g nodes) = mapSpansInNodes (f ∘ g) nodes
  | [] => rfl
  | node :: rest => by
    rw [mapSpansInNodes, mapSpansInNodes, mapSpansInNodes, mapSpans_mapSpans f g node,
      mapSpansInNodes_mapSpans f g rest]

end

end Node

/-- A line and a column, as far as they are known, for every offset. -/
abbrev Coordinates := UInt64 → Option UInt32 × Option UInt32

/-- The point as it is if, at every offset, the coordinates `first` and `second` change places. -/
def Point.exchange (first second : Coordinates) (point : Point) : Point :=
  let found := Equiv.swap (first point.offset) (second point.offset) (point.line, point.column)
  ⟨point.offset, found.1, found.2⟩

/-- Different points stay different when coordinates change places. -/
theorem Point.exchange_injective (first second : Coordinates) :
    Function.Injective (Point.exchange first second) := by
  rintro ⟨offset, line, column⟩ ⟨offset', line', column'⟩ h
  obtain rfl : offset = offset' := congrArg Point.offset h
  have hfound : Equiv.swap (first offset) (second offset) (line, column) =
      Equiv.swap (first offset) (second offset) (line', column') :=
    Prod.ext (congrArg Point.line h) (congrArg Point.column h)
  cases (Equiv.injective _) hfound
  rfl

/-- The point with nothing but its offset. -/
def Point.withoutLocation (point : Point) : Point :=
  { offset := point.offset }

namespace Span

def exchange (first second : Coordinates) (span : Span) : Span :=
  ⟨span.start.exchange first second, span.stop.map (Point.exchange first second)⟩

theorem exchange_injective (first second : Coordinates) :
    Function.Injective (exchange first second) := by
  have hpoint := Point.exchange_injective first second
  rintro ⟨start, stop⟩ ⟨start', stop'⟩ h
  obtain rfl := hpoint (congrArg Span.start h)
  obtain rfl := Option.map_injective hpoint (congrArg Span.stop h)
  rfl

/-- The span with nothing but the offsets of its points. -/
def withoutLocations (span : Span) : Span :=
  ⟨span.start.withoutLocation, span.stop.map Point.withoutLocation⟩

theorem withoutLocations_exchange (first second : Coordinates) (span : Span) :
    (span.exchange first second).withoutLocations = span.withoutLocations := by
  unfold withoutLocations exchange
  rw [Option.map_map]
  rfl

end Span

/-- The tree without lines and columns. -/
def Node.withoutLocations (tree : Node) : Node :=
  tree.mapSpans Span.withoutLocations

/-- An exchange of coordinates does not show in a tree that has only offsets. -/
theorem Node.withoutLocations_exchange (first second : Coordinates) (tree : Node) :
    (tree.mapSpans (Span.exchange first second)).withoutLocations = tree.withoutLocations := by
  unfold withoutLocations
  rw [mapSpans_mapSpans]
  congr 1
  funext span
  exact span.withoutLocations_exchange first second

namespace Resolver

variable {resolver other : Resolver} (source otherSource : Source)

/-- The line and the column that a resolver finds for an offset. -/
def coordinates (resolver : Resolver) (source : Source) : Coordinates := fun offset =>
  let location := source.location resolver.unit offset.toNat
  (some location.line, some location.column)

/-- A recomputed point has its offset and the coordinates of that offset. -/
theorem completePoint_of_recompute (h : resolver.policy = .recompute) (point : Point) :
    resolver.completePoint source point =
      ⟨point.offset, (resolver.coordinates source point.offset).1,
        (resolver.coordinates source point.offset).2⟩ := by
  have htrusts : ¬ resolver.trusts point = true := by
    simp [trusts, h]
  rw [completePoint, if_neg htrusts]
  rfl

/-- The lines and columns of one source become those of the other. -/
theorem exchange_complete (h : resolver.policy = .recompute) (hother : other.policy = .recompute)
    (span : Span) :
    (resolver.complete source span).exchange (resolver.coordinates source)
        (other.coordinates otherSource) =
      other.complete otherSource span := by
  have hpoint : ∀ point : Point, (resolver.completePoint source point).exchange
      (resolver.coordinates source) (other.coordinates otherSource) =
        other.completePoint otherSource point := by
    intro point
    rw [completePoint_of_recompute source h, completePoint_of_recompute otherSource hother]
    simp only [Point.exchange, Prod.mk.eta, Equiv.swap_apply_left]
  unfold complete Span.exchange
  rw [Option.map_map, hpoint]
  congr 2
  funext point
  exact hpoint point

end Resolver

namespace Pipeline

/-- The pipeline with columns that count something else. -/
def withUnit (pipeline : Pipeline) (unit : ColumnUnit) : Pipeline :=
  { pipeline with resolver := { pipeline.resolver with unit } }

variable {pipeline : Pipeline} {raw : Json}

/-- Native trees of the same value against two sources differ by an exchange of coordinates. -/
theorem native_exchange (hpolicy : pipeline.resolver.policy = .recompute) {unit : ColumnUnit}
    {source otherSource : Source} {native otherNative : Node}
    (h : pipeline.native raw source = .ok native)
    (hother : (pipeline.withUnit unit).native raw otherSource = .ok otherNative) :
    otherNative = native.mapSpans (Span.exchange (pipeline.resolver.coordinates source)
      ((pipeline.withUnit unit).resolver.coordinates otherSource)) := by
  obtain ⟨tree, htree, hresolve⟩ := bind_eq_ok_iff.mp h
  obtain ⟨tree', htree', hresolve'⟩ := bind_eq_ok_iff.mp hother
  have hsame : tree' = tree := Except.ok.inj (htree'.symm.trans htree)
  obtain ⟨-, rfl⟩ := Resolver.resolve_eq_ok hresolve
  obtain ⟨-, rfl⟩ := Resolver.resolve_eq_ok hresolve'
  rw [hsame, Node.mapSpans_mapSpans]
  congr 1
  funext span
  have hpolicy' : (pipeline.withUnit unit).resolver.policy = .recompute := hpolicy
  exact (Resolver.exchange_complete source otherSource hpolicy hpolicy' span).symm

/-- What a mode does with the native tree. -/
theorem run_of_native {source : Source} {native : Node}
    (h : pipeline.native raw source = .ok native) (mode : Mode) :
    pipeline.run mode raw source =
      match mode with
      | .native => .ok native
      | .preprocessed => pipeline.preprocess.apply native
      | .semantic => pipeline.preprocess.apply native >>= pipeline.normalize.apply := by
  unfold run
  rw [h]
  cases mode <;> rfl

/-- If every point is looked up, the rules see nothing of the source: with two sources, encodings
and units of columns for which the native tree can be made, a pipeline gives trees that differ in
lines and columns only, or it fails in the same way. -/
theorem run_independent (pipeline : Pipeline) (hpolicy : pipeline.resolver.policy = .recompute)
    (unit : ColumnUnit) (mode : Mode) (raw : Json) (source otherSource : Source)
    (native otherNative : Node) (h : pipeline.native raw source = .ok native)
    (hother : (pipeline.withUnit unit).native raw otherSource = .ok otherNative) :
    (∃ result otherResult, pipeline.run mode raw source = .ok result ∧
      (pipeline.withUnit unit).run mode raw otherSource = .ok otherResult ∧
      result.withoutLocations = otherResult.withoutLocations) ∨
    ∃ failure, pipeline.run mode raw source = .error failure ∧
      (pipeline.withUnit unit).run mode raw otherSource = .error failure := by
  have hnative := native_exchange hpolicy h hother
  generalize pipeline.resolver.coordinates source = first at hnative
  generalize (pipeline.withUnit unit).resolver.coordinates otherSource = second at hnative
  have hinjective := Span.exchange_injective first second
  have hrun : (pipeline.withUnit unit).run mode raw otherSource =
      (pipeline.run mode raw source).map (Node.mapSpans (Span.exchange first second)) := by
    rw [run_of_native h, run_of_native hother, hnative]
    cases mode with
    | native => rfl
    | preprocessed => exact Phase.apply_mapSpans _ hinjective native
    | semantic =>
      show ((pipeline.preprocess).apply _ >>= pipeline.normalize.apply) = _
      rw [Phase.apply_mapSpans _ hinjective]
      exact map_bind_eq fun tree => Phase.apply_mapSpans _ hinjective tree
  rw [hrun]
  cases pipeline.run mode raw source with
  | error failure => exact Or.inr ⟨failure, rfl, rfl⟩
  | ok result =>
    exact Or.inl ⟨result, _, rfl, rfl, (Node.withoutLocations_exchange first second result).symm⟩

/-- A pair of the same node twice gives way to that node. -/
def merging : Pipeline where
  schema := { keys := { offset := some "pos" } }
  resolver := { policy := .recompute }
  preprocess :=
    { rules :=
        [{ pattern :=
             { kind := .only "pair"
               slots := [("left", .single { bind := some "it" }),
                 ("right", .single { bind := some "it" })] }
           action := .replace "it" }] }

/-- Two pairs of names; only in the first do both names stand at the same offset. -/
def pairs : Json :=
  let name (offset : UInt64) : Json := .obj [("kind", .str "name"), ("pos", .num (.whole offset))]
  let pair (left right : Json) : Json :=
    .obj [("kind", .str "pair"), ("left", left), ("right", right)]
  .obj [("kind", .str "list"), ("items", .arr [pair (name 2) (name 2), pair (name 0) (name 2)])]

/-- What is left of the pairs, given where the two offsets lie. -/
def reducedPairs (first second : Point) : Node :=
  let name (point : Point) : Node := { kind := "name", position := some ⟨point, none⟩ }
  { kind := "list"
    slots := [("items", .sequence
      [name second,
        { kind := "pair"
          slots := [("left", .single (name first)), ("right", .single (name second))] }])] }

/-- In one source the second offset starts a line, in the other it stands on the first line; the
first pair is reduced in both cases, and the second in neither. -/
theorem run_independent_merging :
    let lines : Source := ⟨#[0x0A, 0x0A], .utf8⟩
    let letters : Source := ⟨#[0x61, 0, 0x62, 0], .utf16LE⟩
    let result := reducedPairs ⟨0, some 1, some 1⟩ ⟨2, some 3, some 1⟩
    let otherResult := reducedPairs ⟨0, some 1, some 1⟩ ⟨2, some 1, some 2⟩
    merging.run .semantic pairs lines = .ok result ∧
      (merging.withUnit .codePoint).run .semantic pairs letters = .ok otherResult ∧
      result.withoutLocations = otherResult.withoutLocations := by
  intro lines letters result otherResult
  have hrun : merging.run .semantic pairs lines = .ok result := by cbv
  have hother : (merging.withUnit .codePoint).run .semantic pairs letters = .ok otherResult := by
    cbv
  obtain ⟨native, hnative, -⟩ := bind_eq_ok_iff.mp hrun
  obtain ⟨otherNative, hotherNative, -⟩ := bind_eq_ok_iff.mp hother
  have hruns := run_independent merging rfl .codePoint .semantic pairs lines letters native
    otherNative hnative hotherNative
  rcases hruns with ⟨found, otherFound, hfound, hotherFound, hequal⟩ | ⟨failure, hfailure, -⟩
  · rw [hrun] at hfound
    rw [hother] at hotherFound
    cases hfound
    cases hotherFound
    exact ⟨hrun, hother, hequal⟩
  · rw [hrun] at hfailure
    cases hfailure

end Pipeline

end CanonicalTree
