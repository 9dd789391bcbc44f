import CanonicalTree.Proofs.Faults
import CanonicalTree.Proofs.Levels
import CanonicalTree.Proofs.Repairs

/-!
# How deep conversion goes

Repairs change a record just before conversion goes into it, so conversion does not follow the value
that it was given. What bounds it is the depth of what is still to be visited. `Calls` lists the
calls that conversion makes, and no call goes further down than the depth of its value allows, as
long as no repair makes a record deeper (`Calls.depth_le`).

So conversion comes to an end by itself: it needs no more levels than the value is deep
(`convertWithin_ends`), further levels make no difference, and no failure is due to a lack of them
(`convert_returns`).
-/

namespace CanonicalTree

/-! ## Computations that come to an end -/

namespace Ends

variable {α β : Type} {outcome : Except Failure α}

theorem ok (result : α) : Ends (.ok result) :=
  nofun

theorem error {failure : Failure} (h : failure.cause ≠ .endlessRepair) :
    Ends (.error failure : Except Failure α) := by
  intro same hsame
  cases hsame
  exact h

theorem bind {step : α → Except Failure β} (h : Ends outcome)
    (hstep : ∀ result, outcome = .ok result → Ends (step result)) : Ends (outcome >>= step) := by
  cases outcome with
  | error failure => exact error (h failure rfl)
  | ok result => exact hstep result rfl

theorem within (segment : Segment) (h : Ends outcome) :
    Ends (CanonicalTree.within segment outcome) := by
  intro failure hfailure
  obtain ⟨inner, hinner, rfl⟩ := within_eq_error_iff.mp hfailure
  exact h inner hinner

theorem foldlM {step : β → α → Except Failure β} {items : List α}
    (hstep : ∀ item ∈ items, ∀ state, Ends (step state item)) (start : β) :
    Ends (items.foldlM step start) := by
  induction items generalizing start with
  | nil => exact ok start
  | cons item rest ih =>
    obtain ⟨hitem, hrest⟩ := List.forall_mem_cons.mp hstep
    rw [List.foldlM_cons]
    exact (hitem start).bind fun next _ => ih hrest next

end Ends

namespace Schema

/-! ## Calls -/

/-- A call that conversion makes. -/
inductive Call where
  /-- Make a node of a repaired record. -/
  | node (record : Record)
  /-- Add what a field of a node record contributes. -/
  | field (value : Json)
  /-- Make a node of an item of a sequence. -/
  | item (value : Json)
  /-- Add the scalars of a repaired data record. -/
  | flatten (record : Record)
  /-- Add what a field of a data record contributes. -/
  | datum (value : Json)

/-- The depth of the value that a call is about. -/
def Call.depth : Call → Nat
  | .node record => (Json.obj record).depth
  | .field value => value.depth
  | .item value => value.depth
  | .flatten record => (Json.obj record).depth
  | .datum value => value.depth

/-- A call may make another one, which is about the same value after its repair, or about a part of
it, which is one level further down. -/
inductive Calls (schema : Schema) : Call → Nat → Call → Prop
  | field {record : Record} {key : String} {value : Json} : (key, value) ∈ record →
      Calls schema (.node record) 1 (.field value)
  | fieldNode {record repaired : Record} : schema.repair record = .ok repaired →
      schema.isNode repaired = true → Calls schema (.field (.obj record)) 0 (.node repaired)
  | fieldData {record repaired : Record} : schema.repair record = .ok repaired →
      schema.isNode repaired = false → Calls schema (.field (.obj record)) 0 (.flatten repaired)
  | item {values : List Json} {value : Json} : value ∈ values →
      Calls schema (.field (.arr values)) 1 (.item value)
  | itemNode {record repaired : Record} : schema.repair record = .ok repaired →
      schema.isNode repaired = true → Calls schema (.item (.obj record)) 0 (.node repaired)
  | datum {record : Record} {key : String} {value : Json} : (key, value) ∈ record →
      Calls schema (.flatten record) 1 (.datum value)
  | datumData {record repaired : Record} : schema.repair record = .ok repaired →
      schema.isNode repaired = false → Calls schema (.datum (.obj record)) 0 (.flatten repaired)

/-- A call that is nested in the conversion of a value, as many levels below it as the calls on the
way to it have gone down. -/
inductive Nested (schema : Schema) : Json → Nat → Call → Prop
  | root {record repaired : Record} : schema.repair record = .ok repaired →
      Nested schema (.obj record) 0 (.node repaired)
  | step {value : Json} {levels further : Nat} {call next : Call} :
      Nested schema value levels call → Calls schema call further next →
      Nested schema value (levels + further) next

section Depth

variable {schema : Schema} (hshallow : ∀ repair ∈ schema.repairs, repair.Shallow)

include hshallow

/-- A repaired record is no deeper than it was. -/
theorem depth_repair_le {record repaired : Record} (h : schema.repair record = .ok repaired) :
    (Json.obj repaired).depth ≤ (Json.obj record).depth := by
  rw [Json.depth_obj, Json.depth_obj]
  exact Nat.succ_le_succ (Repair.depthFields_runAll hshallow h)

/-- What a call goes down, it takes from the depth that is left. -/
theorem Calls.depth_le {call next : Call} {levels : Nat} (h : Calls schema call levels next) :
    levels + next.depth ≤ call.depth := by
  have hpart : ∀ {record : Record} {key : String} {value : Json}, (key, value) ∈ record →
      1 + value.depth ≤ (Json.obj record).depth := by
    intro record key value hvalue
    have hdepth : value.depth ≤ Json.depthFields record := depth_le_depthFields hvalue
    rw [Json.depth_obj]
    omega
  have hsame : ∀ {record repaired : Record}, schema.repair record = .ok repaired →
      0 + (Json.obj repaired).depth ≤ (Json.obj record).depth := by
    intro record repaired hrepair
    rw [Nat.zero_add]
    exact depth_repair_le hshallow hrepair
  cases h with
  | field hvalue => exact hpart hvalue
  | datum hvalue => exact hpart hvalue
  | @item values value hvalue =>
    have hdepth := depth_le_depthItems hvalue
    simp only [Call.depth, Json.depth_arr]
    omega
  | fieldNode hrepair _ => exact hsame hrepair
  | fieldData hrepair _ => exact hsame hrepair
  | itemNode hrepair _ => exact hsame hrepair
  | datumData hrepair _ => exact hsame hrepair

/-- However calls are nested, the levels they have gone down and the depth that is left add up to no
more than the depth of the value. -/
theorem Nested.depth_le {value : Json} {call : Call} {levels : Nat}
    (h : Nested schema value levels call) : levels + call.depth ≤ value.depth := by
  induction h with
  | root hrepair =>
    rw [Nat.zero_add]
    exact depth_repair_le hshallow hrepair
  | step _ hcalls ih =>
    have hstep := hcalls.depth_le hshallow
    omega

end Depth

/-! ## Calls that come to an end -/

section Ends

variable {schema : Schema} {convert : Record → Except Failure Node}
  {nested : Record → Fields Scalar → Except Failure (Fields Scalar)}

/-- Repairs of one record come to an end. -/
theorem repair_ends (schema : Schema) (record : Record) : Ends (schema.repair record) := by
  unfold Schema.repair
  induction schema.repairs generalizing record with
  | nil => exact .ok record
  | cons repair rest ih =>
    rw [Repair.runAll]
    cases repair.run record with
    | ok repaired => exact ih repaired
    | error fault =>
      refine .error fun hendless => ?_
      cases hendless

theorem shapeFault_ends {α : Type} (fault : ShapeFault) :
    Ends (.error fault.failure : Except Failure α) :=
  .error nofun

theorem addProperty_ends (properties : Fields Scalar) (key : String) (value : Json) :
    Ends (addProperty properties key value) := by
  unfold addProperty
  cases Scalar.ofJson? value with
  | none => exact shapeFault_ends _
  | some scalar =>
    dsimp only
    split
    · exact shapeFault_ends _
    · exact .ok _

/-- A field of a data record can be added if the calls for that field come to an end. -/
theorem addDatum_ends {field : String × Json}
    (h : ∀ repaired, Calls schema (.datum field.2) 0 (.flatten repaired) →
      ∀ properties, Ends (nested repaired properties))
    (properties : Fields Scalar) : Ends (addDatum schema nested properties field) := by
  obtain ⟨key, value⟩ := field
  refine Ends.within _ ?_
  cases value with
  | obj record =>
    refine (repair_ends schema record).bind fun repaired hrepaired => ?_
    by_cases hnode : schema.isNode repaired = true
    · rw [if_pos hnode]
      exact shapeFault_ends _
    · rw [if_neg hnode]
      exact h repaired (.datumData hrepaired (Bool.not_eq_true _ ▸ hnode)) properties
  | arr values => exact shapeFault_ends _
  | _ => exact addProperty_ends _ _ _

theorem item_ends {value : Json}
    (h : ∀ repaired, Calls schema (.item value) 0 (.node repaired) → Ends (convert repaired)) :
    Ends (item schema convert value) := by
  cases value with
  | obj record =>
    refine (repair_ends schema record).bind fun repaired hrepaired => ?_
    by_cases hnode : schema.isNode repaired = true
    · rw [if_pos hnode]
      exact h repaired (.itemNode hrepaired hnode)
    · rw [if_neg hnode]
      exact shapeFault_ends _
  | _ => exact shapeFault_ends _

theorem items_ends {values : List Json} (i : Nat)
    (h : ∀ value ∈ values, Ends (item schema convert value)) :
    Ends (items schema convert i values) := by
  induction values generalizing i with
  | nil => exact .ok []
  | cons value rest ih =>
    obtain ⟨hvalue, hrest⟩ := List.forall_mem_cons.mp h
    rw [items]
    refine (hvalue.within (.index i)).bind fun node _ => ?_
    exact (ih (i + 1) hrest).bind fun nodes _ => .ok (node :: nodes)

/-- A field of a node record can be added if the calls for that field come to an end. -/
theorem addField_ends {field : String × Json}
    (hnode : ∀ repaired, Calls schema (.field field.2) 0 (.node repaired) →
      Ends (convert repaired))
    (hdata : ∀ repaired, Calls schema (.field field.2) 0 (.flatten repaired) →
      ∀ properties, Ends (nested repaired properties))
    (hitem : ∀ value, Calls schema (.field field.2) 1 (.item value) →
      Ends (item schema convert value)) (node : Node) :
    Ends (addField schema convert nested node field) := by
  obtain ⟨key, value⟩ := field
  have hproperty : Ends (addNodeProperty node key value) :=
    (addProperty_ends node.properties key value).bind fun _ _ => .ok _
  refine Ends.within _ ?_
  cases value with
  | obj record =>
    refine (repair_ends schema record).bind fun repaired hrepaired => ?_
    by_cases hkind : schema.isNode repaired = true
    · rw [if_pos hkind]
      exact (hnode repaired (.fieldNode hrepaired hkind)).bind fun child _ => .ok _
    · rw [if_neg hkind]
      have hcall := Calls.fieldData hrepaired (Bool.not_eq_true _ ▸ hkind)
      exact (hdata repaired hcall node.properties).bind fun properties _ => .ok _
  | arr values =>
    have hvalues := items_ends 0 fun value hvalue => hitem value (.item hvalue)
    exact hvalues.bind fun nodes _ => .ok _
  | _ => exact hproperty

end Ends

/-! ## Enough levels -/

section Levels

variable {schema : Schema} (hshallow : ∀ repair ∈ schema.repairs, repair.Shallow)

include hshallow

/-- As many levels as a data record is deep suffice for it. -/
theorem flatten_ends {fuel : Nat} {record : Record}
    (hfuel : (Call.flatten record).depth ≤ fuel) (properties : Fields Scalar) :
    Ends (flatten schema fuel record properties) := by
  induction fuel generalizing record properties with
  | zero =>
    rw [Call.depth, Json.depth_obj] at hfuel
    omega
  | succ fuel ih =>
    rw [flatten]
    refine Ends.foldlM (fun field hfield state => ?_) properties
    have hcall : Calls schema (.flatten record) 1 (.datum field.2) := .datum hfield
    have hdatum := hcall.depth_le hshallow
    refine addDatum_ends (fun repaired hcall others => ?_) state
    have hrepaired := hcall.depth_le hshallow
    exact ih (by omega) others

/-- As many levels as a node record is deep suffice for it. -/
theorem node_ends {fuel : Nat} {record : Record} (hfuel : (Call.node record).depth ≤ fuel) :
    Ends (node schema fuel record) := by
  induction fuel generalizing record with
  | zero =>
    rw [Call.depth, Json.depth_obj] at hfuel
    omega
  | succ fuel ih =>
    -- kind, token and position are read without a further call
    have hkind : Ends (kind schema.keys record) := by
      intro failure h
      obtain ⟨-, rfl⟩ := kind_eq_error h
      exact nofun
    have htoken : Ends (token schema.keys record) := by
      intro failure h
      obtain ⟨key, value, -, -, -, rfl⟩ := token_eq_error h
      exact nofun
    have hposition : Ends (position schema.keys record) := by
      intro failure h
      obtain ⟨key, -, name, fault, -, -, rfl⟩ := position_eq_error h
      exact nofun
    rw [node]
    refine hkind.bind fun name _ => htoken.bind fun found _ => hposition.bind fun span _ => ?_
    refine Ends.foldlM (fun field hfield state => ?_) _
    have hcall : Calls schema (.node record) 1 (.field field.2) :=
      .field (List.mem_of_mem_filter hfield)
    have hdepth := hcall.depth_le hshallow
    refine addField_ends (fun repaired hcall => ?_) (fun repaired hcall others => ?_)
      (fun value hcall => ?_) state
    · have hrepaired := hcall.depth_le hshallow
      exact ih (by omega)
    · have hrepaired := hcall.depth_le hshallow
      exact flatten_ends hshallow (by omega) others
    · have hvalue := hcall.depth_le hshallow
      refine item_ends fun repaired hcall => ?_
      have hrepaired := hcall.depth_le hshallow
      exact ih (by omega)

/-- As many levels as the value is deep suffice. -/
theorem convertWithin_ends {fuel : Nat} {value : Json} (hfuel : value.depth ≤ fuel) :
    Ends (convertWithin schema fuel value) := by
  cases value with
  | obj record =>
    refine (repair_ends schema record).bind fun repaired hrepaired => ?_
    have hdepth := depth_repair_le hshallow hrepaired
    exact node_ends hshallow (Nat.le_trans hdepth hfuel)
  | _ => exact shapeFault_ends _

end Levels

/-- If no repair makes a record deeper, conversion comes to an end: as many levels as the value is
deep are enough for it, with more levels the outcome is the same, and it is never that of a repair
without end. Nowhere do nested calls go down further than the value is deep. -/
theorem convert_returns (schema : Schema) (hshallow : ∀ repair ∈ schema.repairs, repair.Shallow)
    (value : Json) :
    (∀ levels, value.depth ≤ levels →
      schema.convertWithin levels value = schema.convert value) ∧
    (∀ failure, schema.convert value = .error failure → failure.cause ≠ .endlessRepair) ∧
    (∀ levels call, Nested schema value levels call → levels + call.depth ≤ value.depth) := by
  have hconvert : Ends (schema.convert value) :=
    convertWithin_ends hshallow (Nat.le_add_right _ _)
  refine ⟨fun levels hlevels => ?_, hconvert, fun levels call h => h.depth_le hshallow⟩
  exact convertWithin_eq_of_ends (convertWithin_ends hshallow hlevels) hconvert

/-- The calls for the innermost record go down as far as the value allows. -/
theorem convert_returns_call :
    let schema : Schema := { repairs := [Repair.flags "modifiers", Repair.drop "drop_raw" "raw"] }
    let call : Json :=
      .obj [("kind", .str "call"), ("modifiers", .arr [.str "async"]),
        ("meta", .obj [("raw", .null), ("inner", .obj [])])]
    schema.convertWithin 3 call = .ok { kind := "call", properties := [("async", .bool true)] } ∧
    Nested schema call 2 (.flatten []) ∧ 2 + (Call.flatten []).depth ≤ call.depth := by
  intro schema call
  have hshallow : ∀ repair ∈ schema.repairs, repair.Shallow := by
    simp only [schema, List.forall_mem_cons]
    exact ⟨Repair.shallow_flags _, Repair.shallow_drop _ _, by simp⟩
  obtain ⟨hlevels, -, hnested⟩ := convert_returns schema hshallow call
  have hroot : Nested schema call 0 (.node [("kind", .str "call"),
      ("modifiers", .obj [("async", .bool true)]),
      ("meta", .obj [("raw", .null), ("inner", .obj [])])]) := .root rfl
  have hmeta : Nested schema call 1 (.field (.obj [("raw", .null), ("inner", .obj [])])) :=
    hroot.step (.field (List.mem_cons_of_mem _ (List.mem_cons_of_mem _ List.mem_cons_self)))
  have hdata : Nested schema call 1 (.flatten [("inner", .obj [])]) :=
    hmeta.step (.fieldData rfl rfl)
  have hinner : Nested schema call 2 (.flatten []) :=
    (hdata.step (.datum List.mem_cons_self)).step (.datumData rfl rfl)
  exact ⟨(hlevels 3 (Nat.le_refl 3)).trans rfl, hinner, hnested 2 _ hinner⟩

/-- A repair that adds a record is not shallow, and then conversion need not come to an end. -/
example : ∃ path,
    ({ repairs := [Repair.set "wrap" "inner" (.obj [])] } : Schema).convert
      (.obj [("kind", .str "call")]) = .error ⟨path, .endlessRepair⟩ :=
  ⟨_, rfl⟩

end Schema

end CanonicalTree
