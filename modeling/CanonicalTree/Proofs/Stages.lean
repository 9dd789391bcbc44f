import CanonicalTree.Proofs.Faults
import CanonicalTree.Proofs.Pipeline
import CanonicalTree.Proofs.Refusals
import CanonicalTree.Proofs.Visits

/-!
# The stage of a failure

A failure tells its stage by its cause alone, and the cause of an unusable position can arise in two
stages. Yet the stage is always the one that was at work: conversion fails while it repairs or while
it converts, resolution fails over positions, and a phase names itself (`Pipeline.run_stage`).
-/

namespace CanonicalTree

variable {α β : Type} {stages : List Stage}

/-- Whatever failure the outcome is, it belongs to one of these stages. -/
def FailsIn (stages : List Stage) (outcome : Except Failure α) : Prop :=
  ∀ failure, outcome = .error failure → failure.stage ∈ stages

namespace FailsIn

variable {outcome : Except Failure α}

theorem ok (result : α) : FailsIn stages (.ok result) := by
  intro failure h
  cases h

theorem error {failure : Failure} (h : failure.stage ∈ stages) :
    FailsIn stages (.error failure : Except Failure α) := by
  intro other hother
  cases hother
  exact h

theorem bind {step : α → Except Failure β} (h : FailsIn stages outcome)
    (hstep : ∀ result, FailsIn stages (step result)) : FailsIn stages (outcome >>= step) := by
  intro failure hfailure
  rcases bind_eq_error_iff.mp hfailure with hfirst | ⟨result, -, hsecond⟩
  · exact h failure hfirst
  · exact hstep result failure hsecond

theorem within (segment : Segment) (h : FailsIn stages outcome) :
    FailsIn stages (CanonicalTree.within segment outcome) := by
  intro failure hfailure
  obtain ⟨inner, hinner, rfl⟩ := within_eq_error_iff.mp hfailure
  exact h inner hinner

theorem foldlM {step : β → α → Except Failure β}
    (hstep : ∀ state item, FailsIn stages (step state item)) (items : List α) (start : β) :
    FailsIn stages (items.foldlM step start) := by
  intro failure hfailure
  obtain ⟨-, item, -, state, -, -, hfails⟩ := exists_split_of_foldlM_eq_error hfailure
  exact hstep state item failure hfails

end FailsIn

/-! ## Conversion -/

namespace Schema

/-- The stages in which conversion can fail. -/
abbrev ownStages : List Stage := [.repair, .convert]

variable {schema : Schema} {convert : Record → Except Failure Node}
  {nested : Record → Fields Scalar → Except Failure (Fields Scalar)}

/-- Repairs fail in their own stage. -/
theorem repair_failsIn (schema : Schema) (record : Record) :
    FailsIn ownStages (schema.repair record) := by
  unfold Schema.repair
  induction schema.repairs generalizing record with
  | nil => exact .ok record
  | cons repair rest ih =>
    rw [Repair.runAll]
    split
    · exact ih _
    · exact .error List.mem_cons_self

theorem shapeFault_failsIn (fault : ShapeFault) :
    FailsIn ownStages (.error fault.failure : Except Failure α) :=
  .error (List.mem_cons_of_mem _ List.mem_cons_self)

theorem kind_failsIn (keys : Keys) (record : Record) : FailsIn ownStages (kind keys record) := by
  intro failure h
  obtain ⟨-, rfl⟩ := kind_eq_error h
  simp [Failure.here, Failure.stage]

theorem token_failsIn (keys : Keys) (record : Record) : FailsIn ownStages (token keys record) := by
  intro failure h
  obtain ⟨key, value, -, -, -, rfl⟩ := token_eq_error h
  simp [ShapeFault.failure, Failure.here, Failure.under, Failure.stage]

/-- An unusable position that is found here belongs to conversion. -/
theorem position_failsIn (keys : Keys) (record : Record) :
    FailsIn ownStages (position keys record) := by
  intro failure h
  obtain ⟨key, -, name, fault, -, -, rfl⟩ := position_eq_error h
  simp [PositionFault.failure, Failure.here, Failure.stage]

theorem addProperty_failsIn (properties : Fields Scalar) (key : String) (value : Json) :
    FailsIn ownStages (addProperty properties key value) := by
  unfold addProperty
  cases Scalar.ofJson? value with
  | none => exact shapeFault_failsIn _
  | some scalar =>
    dsimp only
    split
    · exact shapeFault_failsIn _
    · exact .ok _

theorem addDatum_failsIn
    (hnested : ∀ record properties, FailsIn ownStages (nested record properties))
    (properties : Fields Scalar) (field : String × Json) :
    FailsIn ownStages (addDatum schema nested properties field) := by
  refine FailsIn.within _ ?_
  split
  · next record _ =>
    refine (repair_failsIn schema record).bind fun repaired => ?_
    split
    · exact shapeFault_failsIn _
    · exact hnested repaired properties
  · exact shapeFault_failsIn _
  · exact addProperty_failsIn _ _ _

theorem flatten_failsIn (fuel : Nat) (record : Record) (properties : Fields Scalar) :
    FailsIn ownStages (flatten schema fuel record properties) := by
  induction fuel generalizing record properties with
  | zero => exact .error List.mem_cons_self
  | succ fuel ih =>
    rw [flatten]
    exact FailsIn.foldlM (addDatum_failsIn ih) record properties

theorem item_failsIn (hconvert : ∀ record, FailsIn ownStages (convert record)) (value : Json) :
    FailsIn ownStages (item schema convert value) := by
  unfold item
  split
  · next record =>
    refine (repair_failsIn schema record).bind fun repaired => ?_
    split
    · exact hconvert repaired
    · exact shapeFault_failsIn _
  · exact shapeFault_failsIn _

theorem items_failsIn (hconvert : ∀ record, FailsIn ownStages (convert record)) (i : Nat)
    (values : List Json) : FailsIn ownStages (items schema convert i values) := by
  induction values generalizing i with
  | nil => exact .ok []
  | cons value rest ih =>
    rw [items]
    refine ((item_failsIn hconvert value).within (.index i)).bind fun node => ?_
    exact (ih (i + 1)).bind fun nodes => .ok (node :: nodes)

theorem addField_failsIn (hconvert : ∀ record, FailsIn ownStages (convert record))
    (hnested : ∀ record properties, FailsIn ownStages (nested record properties)) (node : Node)
    (field : String × Json) : FailsIn ownStages (addField schema convert nested node field) := by
  refine FailsIn.within _ ?_
  split
  · next record _ =>
    refine (repair_failsIn schema record).bind fun repaired => ?_
    split
    · exact (hconvert repaired).bind fun child => .ok _
    · exact (hnested repaired node.properties).bind fun properties => .ok _
  · next values _ => exact (items_failsIn hconvert 0 values).bind fun nodes => .ok _
  · exact (addProperty_failsIn node.properties field.1 _).bind fun _ => .ok _

/-- Making a node of a record fails in repair or conversion. -/
theorem node_failsIn (fuel : Nat) (record : Record) :
    FailsIn ownStages (node schema fuel record) := by
  induction fuel generalizing record with
  | zero => exact .error List.mem_cons_self
  | succ fuel ih =>
    rw [node]
    refine (kind_failsIn schema.keys record).bind fun name => ?_
    refine (token_failsIn schema.keys record).bind fun found => ?_
    refine (position_failsIn schema.keys record).bind fun span => ?_
    exact FailsIn.foldlM (addField_failsIn ih (flatten_failsIn fuel)) _ _

/-- Converting a value fails in repair or conversion. -/
theorem convert_failsIn (schema : Schema) (raw : Json) :
    FailsIn ownStages (schema.convert raw) := by
  unfold Schema.convert convertWithin
  split
  · next record => exact (repair_failsIn schema record).bind fun repaired => node_failsIn _ repaired
  · exact shapeFault_failsIn _

end Schema

/-! ## Resolution and phases -/

/-- A source complains about positions. -/
theorem Source.stage_complaint (source : Source) (visit : Path × Endpoint) :
    (source.complaint visit).stage = .position := by
  simp only [complaint, Failure.stage]
  by_cases h : source.bytes.size < visit.2.point.offset.toNat
  · simp only [if_pos h]
  · simp only [if_neg h]

/-- Resolving a tree fails in the stage of positions. -/
theorem Resolver.resolve_failsIn (resolver : Resolver) (source : Source) (tree : Node) :
    FailsIn [.position] (resolver.resolve source tree) := by
  intro failure h
  have hreports := reportsAll resolver source tree {} (Cursor.sound_empty source resolver.unit)
  rcases bind_eq_error_iff.mp h with hnode | ⟨found, -, hpure⟩
  · rw [hnode] at hreports
    obtain ⟨-, visit, -, -, -, -, rfl⟩ := hreports
    exact List.mem_singleton.mpr (source.stage_complaint visit)
  · cases hpure

/-- A phase that fails puts its name into the failure. -/
theorem Phase.exists_rule_of_apply_eq_error {phase : Phase} {tree : Node} {failure : Failure}
    (h : phase.apply tree = .error failure) :
    ∃ index rule message, failure.cause = .ruleApplication phase.name index rule message := by
  have hstops := stopsFirst phase tree
  rw [apply_eq_transform] at h
  unfold StopsFirst at hstops
  rw [h] at hstops
  obtain ⟨-, node, -, -, -, index, rule, fault, -, hcause⟩ := hstops
  exact ⟨index, rule.name, fault.message, hcause⟩

/-- Applying a phase fails in the stage of rules. -/
theorem Phase.apply_failsIn (phase : Phase) (tree : Node) :
    FailsIn [.rules] (phase.apply tree) := by
  intro failure h
  obtain ⟨index, rule, message, hcause⟩ := exists_rule_of_apply_eq_error h
  simp [Failure.stage, hcause]

namespace Pipeline

variable {pipeline : Pipeline} {raw : Json} {source : Source} {failure : Failure}

/-- The phases that a mode asks for, in order. -/
def phases (pipeline : Pipeline) : Mode → List Phase
  | .native => []
  | .preprocessed => [pipeline.preprocess]
  | .semantic => [pipeline.preprocess, pipeline.normalize]

/-- The tree after several phases. -/
def applyAll (phases : List Phase) (tree : Node) : Except Failure Node :=
  phases.foldlM (fun tree phase => phase.apply tree) tree

/-- A run makes a native tree and applies the phases of its mode in order. -/
theorem run_eq_applyAll (mode : Mode) :
    pipeline.run mode raw source =
      pipeline.native raw source >>= applyAll (pipeline.phases mode) := by
  unfold run
  congr 1
  funext tree
  cases mode with
  | native => rfl
  | preprocessed =>
    show pipeline.preprocess.apply tree = pipeline.preprocess.apply tree >>= pure
    rw [bind_pure]
  | semantic =>
    show (pipeline.preprocess.apply tree >>= pipeline.normalize.apply) =
      pipeline.preprocess.apply tree >>= fun tree => pipeline.normalize.apply tree >>= pure
    simp only [bind_pure]

/-- The phases before this one succeed on the tree, and then this one fails. -/
def FailsAfter (before : List Phase) (phase : Phase) (tree : Node) (failure : Failure) : Prop :=
  ∃ input, applyAll before tree = .ok input ∧ phase.apply input = .error failure

/-- A phase that fails ends the run, whatever phases follow. -/
theorem applyAll_of_failsAfter {before phases : List Phase} {phase : Phase} {tree : Node}
    (h : FailsAfter before phase tree failure) (hphases : before ++ [phase] <+: phases) :
    applyAll phases tree = .error failure := by
  obtain ⟨after, rfl⟩ := hphases
  obtain ⟨input, hbefore, hphase⟩ := h
  unfold applyAll at hbefore ⊢
  rw [List.append_assoc, List.foldlM_append, hbefore]
  show applyAll (phase :: after) input = .error failure
  rw [applyAll, List.foldlM_cons, hphase]
  rfl

/-- A run fails in conversion, in resolution or in one of its phases. -/
theorem run_eq_error {mode : Mode} (h : pipeline.run mode raw source = .error failure) :
    pipeline.schema.convert raw = .error failure ∨
    (∃ tree, pipeline.schema.convert raw = .ok tree ∧
      pipeline.resolver.resolve source tree = .error failure) ∨
    ∃ tree native before phase after, pipeline.schema.convert raw = .ok tree ∧
      pipeline.resolver.resolve source tree = .ok native ∧
      pipeline.phases mode = before ++ phase :: after ∧
      FailsAfter before phase native failure := by
  rw [run_eq_applyAll] at h
  rcases bind_eq_error_iff.mp h with hnative | ⟨native, hnative, hphases⟩
  · rcases bind_eq_error_iff.mp hnative with hconvert | ⟨tree, htree, hresolve⟩
    · exact Or.inl hconvert
    · exact Or.inr (Or.inl ⟨tree, htree, hresolve⟩)
  · obtain ⟨tree, htree, hresolve⟩ := bind_eq_ok_iff.mp hnative
    obtain ⟨before, phase, after, input, hsplit, hbefore, hfails⟩ :=
      exists_split_of_foldlM_eq_error hphases
    exact Or.inr (Or.inr ⟨tree, native, before, phase, after, htree, hresolve, hsplit, input,
      hbefore, hfails⟩)

/-- Conversion is at work before anything else: if it fails, the run fails with it. -/
theorem run_of_convert_error {other : Failure} (h : pipeline.schema.convert raw = .error other)
    (mode : Mode) : pipeline.run mode raw source = .error other := by
  have hnative : pipeline.native raw source = .error other := by
    rw [native, h]
    rfl
  rw [run, hnative]
  rfl

/-- If positions cannot be completed, all modes fail over them. -/
theorem run_of_resolve_error {tree : Node} {other : Failure}
    (htree : pipeline.schema.convert raw = .ok tree)
    (h : pipeline.resolver.resolve source tree = .error other) (mode : Mode) :
    pipeline.run mode raw source = .error other := by
  have hnative : pipeline.native raw source = .error other := by
    rw [native, htree]
    exact h
  rw [run, hnative]
  rfl

/-- If a phase of the mode fails after those before it, so does the run. -/
theorem run_of_failsAfter {native : Node} {before : List Phase} {phase : Phase} {mode : Mode}
    (hnative : pipeline.native raw source = .ok native) (h : FailsAfter before phase native failure)
    (hphases : before ++ [phase] <+: pipeline.phases mode) :
    pipeline.run mode raw source = .error failure := by
  rw [run_eq_applyAll, hnative]
  exact applyAll_of_failsAfter h hphases

/-! ### The stage of each way to fail -/

/-- A failure of conversion is one of repair or conversion. -/
theorem stage_of_convert_error (h : pipeline.schema.convert raw = .error failure) :
    failure.stage = .repair ∨ failure.stage = .convert := by
  have hstage := Schema.convert_failsIn pipeline.schema raw failure h
  simpa using hstage

theorem stage_of_resolve_error {tree : Node}
    (h : pipeline.resolver.resolve source tree = .error failure) : failure.stage = .position := by
  have hstage := Resolver.resolve_failsIn pipeline.resolver source tree failure h
  simpa using hstage

theorem stage_of_failsAfter {before : List Phase} {phase : Phase} {native : Node}
    (h : FailsAfter before phase native failure) : failure.stage = .rules := by
  obtain ⟨input, -, hfails⟩ := h
  have hstage := Phase.apply_failsIn phase input failure hfails
  simpa using hstage

/-- A failure tells which stage of the run it comes from: conversion, which repairs and converts;
resolution; or the first phase that fails among those of the mode, which the failure then names. So
the native mode never fails in the rules, and modes that go through the same stages up to the one
that fails have this failure in common. -/
theorem run_stage (pipeline : Pipeline) (mode : Mode) (raw : Json) (source : Source)
    (failure : Failure) (h : pipeline.run mode raw source = .error failure) :
    ((failure.stage = .repair ∨ failure.stage = .convert) ↔
      pipeline.schema.convert raw = .error failure) ∧
    (∀ other, pipeline.schema.convert raw = .error other → other = failure) ∧
    (failure.stage = .position ↔
      ∃ tree, pipeline.schema.convert raw = .ok tree ∧
        pipeline.resolver.resolve source tree = .error failure) ∧
    (∀ tree other, pipeline.schema.convert raw = .ok tree →
      pipeline.resolver.resolve source tree = .error other → other = failure) ∧
    (failure.stage = .rules ↔
      ∃ tree native before phase after, pipeline.schema.convert raw = .ok tree ∧
        pipeline.resolver.resolve source tree = .ok native ∧
        pipeline.phases mode = before ++ phase :: after ∧
        FailsAfter before phase native failure ∧
        ∃ index rule message, failure.cause = .ruleApplication phase.name index rule message) ∧
    (mode = .native → failure.stage ≠ .rules) ∧
    (∀ other, failure.stage ≠ .rules → pipeline.run other raw source = .error failure) ∧
    ∀ other before phase native, before ++ [phase] <+: pipeline.phases mode →
      before ++ [phase] <+: pipeline.phases other → pipeline.native raw source = .ok native →
      FailsAfter before phase native failure → pipeline.run other raw source = .error failure := by
  have hsame : ∀ other, pipeline.run mode raw source = .error other → other = failure := by
    intro other hother
    exact Except.error.inj (hother.symm.trans h)
  -- the three ways to fail lead to different stages, so the stage tells which it was
  have hcases := run_eq_error h
  refine ⟨⟨?_, stage_of_convert_error⟩, ?_, ⟨?_, ?_⟩, ?_, ⟨?_, ?_⟩, ?_, ?_, ?_⟩
  · intro hstage
    rcases hcases with hfails | ⟨tree, -, hfails⟩ | ⟨_, _, _, _, _, -, -, -, hfails⟩
    · exact hfails
    · simp [stage_of_resolve_error hfails] at hstage
    · simp [stage_of_failsAfter hfails] at hstage
  · intro other hother
    exact hsame other (run_of_convert_error hother mode)
  · intro hstage
    rcases hcases with hfails | hresolve | ⟨_, _, _, _, _, -, -, -, hfails⟩
    · simpa [hstage] using stage_of_convert_error hfails
    · exact hresolve
    · simp [stage_of_failsAfter hfails] at hstage
  · rintro ⟨tree, -, hfails⟩
    exact stage_of_resolve_error hfails
  · intro tree other htree hother
    exact hsame other (run_of_resolve_error htree hother mode)
  · intro hstage
    rcases hcases with hfails | ⟨tree, -, hfails⟩ |
      ⟨tree, native, before, phase, after, htree, hresolve, hphases, input, hbefore, hlast⟩
    · simpa [hstage] using stage_of_convert_error hfails
    · simp [stage_of_resolve_error hfails] at hstage
    · exact ⟨tree, native, before, phase, after, htree, hresolve, hphases,
        ⟨input, hbefore, hlast⟩, Phase.exists_rule_of_apply_eq_error hlast⟩
  · rintro ⟨_, _, _, _, _, -, -, -, hfails, -⟩
    exact stage_of_failsAfter hfails
  · rintro rfl hstage
    rcases hcases with hfails | ⟨tree, -, hfails⟩ | ⟨-, -, before, phase, after, -, -, hphases, -⟩
    · simpa [hstage] using stage_of_convert_error hfails
    · simp [stage_of_resolve_error hfails] at hstage
    · simp [phases] at hphases
  · intro other hstage
    rcases hcases with hfails | ⟨tree, htree, hfails⟩ | ⟨_, _, _, _, _, -, -, -, hfails⟩
    · exact run_of_convert_error hfails other
    · exact run_of_resolve_error htree hfails other
    · exact absurd (stage_of_failsAfter hfails) hstage
  · intro other before phase native _ hother hnative hfails
    exact run_of_failsAfter hnative hfails hother

/-- Names must have a token; their offsets are read, but nothing else. -/
def naming : Pipeline where
  schema := { keys := { offset := some "pos", endOffset := some "end", tokens := ["text"] } }
  preprocess := Phase.labelling

/-- A name without a token. -/
def nameRecord (places : List (String × UInt64)) : Json :=
  .obj (("kind", .str "name") :: places.map fun place => (place.1, .num (.whole place.2)))

/-- The letters `a` and `b`. -/
def letters : Source :=
  ⟨#[0x61, 0, 0x62, 0], .utf16LE⟩

/-- A name that ends before it starts, one that starts inside a code unit and one without a token.
The first two have an unusable position, but only the second is refused over positions. -/
theorem run_stage_naming :
    let reversed := nameRecord [("pos", 4), ("end", 2)]
    let split := nameRecord [("pos", 1)]
    let bare := nameRecord [("pos", 2)]
    (∃ failure, naming.run .native reversed letters = .error failure ∧
      failure.cause = .invalidPosition .convert "end" "end offset 2 precedes start offset 4" ∧
      naming.schema.convert reversed = .error failure ∧
      naming.run .semantic reversed letters = .error failure) ∧
    (∃ failure, naming.run .native split letters = .error failure ∧
      failure.cause = .invalidPosition .position "start" "offset 1 splits a 2-byte code unit" ∧
      ∃ tree, naming.schema.convert split = .ok tree ∧
        naming.resolver.resolve letters tree = .error failure) ∧
    ∃ failure, naming.run .semantic bare letters = .error failure ∧
      failure.cause = .ruleApplication "labels" 1 "label" "matched node has no token" ∧
      naming.run .preprocessed bare letters = .error failure ∧
      ∃ native, naming.run .native bare letters = .ok native := by
  have hreversed : naming.run .native (nameRecord [("pos", 4), ("end", 2)]) letters =
      .error (.here (.invalidPosition .convert "end" "end offset 2 precedes start offset 4")) := rfl
  have hsplit : naming.run .native (nameRecord [("pos", 1)]) letters =
      .error (.here (.invalidPosition .position "start" "offset 1 splits a 2-byte code unit")) :=
    rfl
  have hbare : naming.run .semantic (nameRecord [("pos", 2)]) letters =
      .error (.here (.ruleApplication "labels" 1 "label" "matched node has no token")) := rfl
  obtain ⟨hconvert, -, -, -, -, -, hshared, -⟩ := run_stage _ _ _ _ _ hreversed
  obtain ⟨-, -, hposition, -⟩ := run_stage _ _ _ _ _ hsplit
  obtain ⟨-, -, -, -, -, -, -, hphase⟩ := run_stage _ _ _ _ _ hbare
  refine ⟨⟨_, hreversed, rfl, hconvert.mp (Or.inr rfl), hshared .semantic nofun⟩,
    ⟨_, hsplit, rfl, hposition.mp rfl⟩, ⟨_, hbare, rfl, ?_, _, rfl⟩⟩
  refine hphase .preprocessed [] Phase.labelling _ ⟨[naming.normalize], rfl⟩ ⟨[], rfl⟩ rfl ?_
  exact ⟨_, rfl, rfl⟩

end Pipeline

end CanonicalTree
