import CanonicalTree.Proofs.Independence
import CanonicalTree.Proofs.Visits

/-!
# Resolving again

A tree that has been resolved can be resolved again, against the same source, as often as one likes.
Its offsets are the old ones, so all of them are still usable; and all its points are complete, so
that a resolver that only fills in what is missing changes nothing, whereas one that looks up every
point comes to the result that it would have given in the first place (`Resolver.resolve_absorbs`).
-/

namespace CanonicalTree

namespace Resolver

variable {source : Source} {earlier later outcome : Resolver} {tree first : Node}

/-! ## Points -/

theorem isResolved_completePoint (resolver : Resolver) (source : Source) (point : Point) :
    (resolver.completePoint source point).isResolved = true := by
  unfold completePoint
  by_cases h : resolver.trusts point = true
  · rw [if_pos h]
    unfold trusts at h
    rw [Bool.and_eq_true] at h
    exact h.2
  · rw [if_neg h]
    rfl

/-- Of two resolvers that are used one after the other, the first leaves nothing to fill in. -/
theorem completePoint_of_fillMissing (hlater : later.policy = .fillMissing) (point : Point) :
    later.completePoint source (earlier.completePoint source point) =
      earlier.completePoint source point := by
  have htrusts : later.trusts (earlier.completePoint source point) = true := by
    simp [trusts, hlater, isResolved_completePoint]
  rw [completePoint, if_pos htrusts]

/-- A point that is looked up does not remember what was known of it. -/
theorem completePoint_completePoint_of_recompute (hlater : later.policy = .recompute)
    (point : Point) :
    later.completePoint source (earlier.completePoint source point) =
      later.completePoint source point := by
  rw [completePoint_of_recompute source hlater, completePoint_of_recompute source hlater,
    offset_completePoint]

/-! ## Trees -/

/-- One after the other, the two resolvers complete a point as the third does alone. -/
def AmountTo (source : Source) (earlier later outcome : Resolver) : Prop :=
  ∀ point, later.completePoint source (earlier.completePoint source point) =
    outcome.completePoint source point

/-- What two resolvers amount to at every point, they amount to at every span. -/
theorem AmountTo.complete_comp (h : AmountTo source earlier later outcome) :
    later.complete source ∘ earlier.complete source = outcome.complete source := by
  have hpoints : later.completePoint source ∘ earlier.completePoint source =
      outcome.completePoint source := funext h
  funext span
  simp only [Function.comp_apply, complete]
  rw [Option.map_map, hpoints, h]

/-- Completing positions keeps their offsets, so they stay usable. -/
theorem usableSpans_mapSpans (resolver : Resolver) (h : tree.UsableSpans source) :
    (tree.mapSpans (resolver.complete source)).UsableSpans source := by
  intro node hnode span hspan point hpoint
  obtain ⟨given, hgiven, origin, horigin, rfl⟩ := Node.exists_position_of_mapSpans hnode hspan
  rw [points_complete] at hpoint
  obtain ⟨unresolved, hunresolved, rfl⟩ := List.mem_map.mp hpoint
  rw [offset_completePoint]
  exact h given hgiven origin horigin unresolved hunresolved

/-- A tree whose offsets are all usable is resolved span by span. -/
theorem resolve_of_usableSpans (resolver : Resolver) (h : tree.UsableSpans source) :
    resolver.resolve source tree = .ok (tree.mapSpans (resolver.complete source)) := by
  have hreports := reportsAll resolver source tree {} (Cursor.sound_empty source resolver.unit)
  cases hresolve : resolver.resolve source tree with
  | ok result => rw [(resolve_eq_ok hresolve).2]
  | error failure =>
    -- a failure would name a visited point whose offset is not usable
    rcases bind_eq_error_iff.mp hresolve with hnode | ⟨found, -, hpure⟩
    · rw [hnode] at hreports
      obtain ⟨before, visit, after, hvisits, -, hrefused, -⟩ := hreports
      have hvisit : visit ∈ tree.visits := hvisits ▸ List.mem_append_cons_self
      exact absurd (usableSpans_iff.mp h visit hvisit) hrefused
    · cases hpure

/-- Two runs, one after the other, come to what the third resolver makes of the tree. -/
theorem resolve_resolve (hamount : AmountTo source earlier later outcome)
    (h : earlier.resolve source tree = .ok first) :
    later.resolve source first = .ok (tree.mapSpans (outcome.complete source)) := by
  obtain ⟨husable, rfl⟩ := resolve_eq_ok h
  rw [resolve_of_usableSpans later (usableSpans_mapSpans earlier husable),
    Node.mapSpans_mapSpans, hamount.complete_comp]

/-- Once a tree has been resolved, filling in what is missing changes nothing, in whatever unit; and
looking up every point succeeds and gives the same tree as it does without the first run. -/
theorem resolve_absorbs (resolver : Resolver) (unit : ColumnUnit) (source : Source)
    (tree first : Node) (h : resolver.resolve source tree = .ok first) :
    ({ unit, policy := .fillMissing } : Resolver).resolve source first = .ok first ∧
    ∃ second, ({ unit, policy := .recompute } : Resolver).resolve source tree = .ok second ∧
      ({ unit, policy := .recompute } : Resolver).resolve source first = .ok second := by
  obtain ⟨husable, hfirst⟩ := resolve_eq_ok h
  refine ⟨?_, _, resolve_of_usableSpans _ husable, ?_⟩
  · rw [resolve_resolve (completePoint_of_fillMissing rfl) h, ← hfirst]
  · exact resolve_resolve (completePoint_completePoint_of_recompute rfl) h

/-- A tree with three points. -/
def threePoints (first second third : Point) : Node :=
  { kind := "block"
    position := some ⟨first, some third⟩
    slots := [("name", .single { kind := "name", position := some ⟨second, none⟩ })] }

/-- The first point is trusted although its line and column are wrong, the second is looked up in
full and the third for the sake of its column. Looking all of them up afterwards mends the first. -/
theorem resolve_absorbs_threePoints :
    -- an accented letter, which takes two bytes, a line end and the letter `b`
    let source : Source := ⟨#[0xC3, 0xA9, 0x0A, 0x62], .utf8⟩
    let tree := threePoints ⟨0, some 7, some 7⟩ { offset := 2 } { offset := 3, line := some 9 }
    let first := threePoints ⟨0, some 7, some 7⟩ ⟨2, some 1, some 3⟩ ⟨3, some 2, some 1⟩
    let second := threePoints ⟨0, some 1, some 1⟩ ⟨2, some 1, some 2⟩ ⟨3, some 2, some 1⟩
    let filling : Resolver := { unit := .codePoint, policy := .fillMissing }
    let mending : Resolver := { unit := .codePoint, policy := .recompute }
    ({ unit := .byte, policy := .fillMissing } : Resolver).resolve source tree = .ok first ∧
      filling.resolve source first = .ok first ∧ mending.resolve source tree = .ok second ∧
      mending.resolve source first = .ok second := by
  intro source tree first second filling mending
  have hfirst : ({ unit := .byte, policy := .fillMissing } : Resolver).resolve source tree =
      .ok first := by cbv
  have hsecond : mending.resolve source tree = .ok second := by cbv
  obtain ⟨hfilled, result, hresult, hmended⟩ :=
    resolve_absorbs _ .codePoint source tree first hfirst
  have hsame : result = second := Except.ok.inj (hresult.symm.trans hsecond)
  rw [hsame] at hmended
  exact ⟨hfirst, hfilled, hsecond, hmended⟩

end Resolver

end CanonicalTree
