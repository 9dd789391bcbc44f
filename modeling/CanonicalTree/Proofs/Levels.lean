import CanonicalTree.Proofs.Outcomes
import CanonicalTree.Schema.Convert

/-!
# Levels that suffice

Conversion is given a number of levels, because repairs can nest records in the records they are
given without end. The number is found from the depth of the value and the reach of the repairs, and
it is no part of what conversion means: if the levels suffice, further ones do not change the
outcome (`convertWithin_approximates`), so that any two numbers that suffice lead to the same
(`convertWithin_eq_of_ends`). Nor does it matter which reach the repairs are said to have, once it
suffices (`convert_withReach`).
-/

namespace CanonicalTree

/-- The computation comes to an end by itself, and not because the levels have run out. -/
def Ends {α : Type} (outcome : Except Failure α) : Prop :=
  ∀ failure, outcome = .error failure → failure.cause ≠ .endlessRepair

/-- If the first computation ends, the second one comes to the same. -/
def Approximates {α : Type} (outcome other : Except Failure α) : Prop :=
  Ends outcome → other = outcome

namespace Approximates

variable {α β : Type} {outcome other : Except Failure α}

theorem refl (outcome : Except Failure α) : Approximates outcome outcome :=
  fun _ => rfl

/-- A computation that runs out of levels approximates every other. -/
theorem endless (path : Path) (other : Except Failure α) :
    Approximates (.error ⟨path, .endlessRepair⟩) other :=
  fun hends => absurd rfl (hends _ rfl)

theorem bind {step step' : α → Except Failure β} (h : Approximates outcome other)
    (hstep : ∀ result, Approximates (step result) (step' result)) :
    Approximates (outcome >>= step) (other >>= step') := by
  intro hends
  cases outcome with
  | error failure =>
    have hother := h fun same hsame => hends same (Except.error.inj hsame ▸ rfl)
    rw [hother]
    rfl
  | ok result =>
    rw [h nofun]
    exact hstep result hends

theorem within (segment : Segment) (h : Approximates outcome other) :
    Approximates (CanonicalTree.within segment outcome)
      (CanonicalTree.within segment other) := by
  intro hends
  have hother := h fun failure hfailure =>
    hends (failure.under segment) (within_eq_error_iff.mpr ⟨failure, hfailure, rfl⟩)
  rw [hother]

theorem foldlM {step step' : β → α → Except Failure β} {items : List α}
    (hstep : ∀ state item, Approximates (step state item) (step' state item)) (start : β) :
    Approximates (items.foldlM step start) (items.foldlM step' start) := by
  induction items generalizing start with
  | nil => exact refl _
  | cons item rest ih =>
    rw [List.foldlM_cons, List.foldlM_cons]
    exact (hstep start item).bind ih

end Approximates

namespace Schema

variable {schema : Schema} {convert convert' : Record → Except Failure Node}
  {nested nested' : Record → Fields Scalar → Except Failure (Fields Scalar)}

/-! ## Further levels -/

/-- A field of a data record is added alike if nested data is. -/
theorem addDatum_approximates
    (h : ∀ record properties, Approximates (nested record properties) (nested' record properties))
    (properties : Fields Scalar) (field : String × Json) :
    Approximates (addDatum schema nested properties field)
      (addDatum schema nested' properties field) := by
  obtain ⟨key, value⟩ := field
  refine Approximates.within _ ?_
  cases value with
  | obj record =>
    refine (Approximates.refl (schema.repair record)).bind fun repaired => ?_
    split
    · exact .refl _
    · exact h repaired properties
  | _ => exact .refl _

theorem item_approximates (h : ∀ record, Approximates (convert record) (convert' record))
    (value : Json) :
    Approximates (item schema convert value) (item schema convert' value) := by
  cases value with
  | obj record =>
    refine (Approximates.refl (schema.repair record)).bind fun repaired => ?_
    split
    · exact h repaired
    · exact .refl _
  | _ => exact .refl _

theorem items_approximates (h : ∀ record, Approximates (convert record) (convert' record))
    (i : Nat) (values : List Json) :
    Approximates (items schema convert i values) (items schema convert' i values) := by
  induction values generalizing i with
  | nil => exact .refl _
  | cons value rest ih =>
    rw [items, items]
    refine ((item_approximates h value).within (.index i)).bind fun node => ?_
    exact (ih (i + 1)).bind fun nodes => .refl _

/-- A field of a node record is added alike if nested nodes and data are. -/
theorem addField_approximates (hnode : ∀ record, Approximates (convert record) (convert' record))
    (hdata : ∀ record properties,
      Approximates (nested record properties) (nested' record properties))
    (node : Node) (field : String × Json) :
    Approximates (addField schema convert nested node field)
      (addField schema convert' nested' node field) := by
  obtain ⟨key, value⟩ := field
  refine Approximates.within _ ?_
  cases value with
  | obj record =>
    refine (Approximates.refl (schema.repair record)).bind fun repaired => ?_
    split
    · exact (hnode repaired).bind fun child => .refl _
    · exact (hdata repaired node.properties).bind fun properties => .refl _
  | arr values => exact (items_approximates hnode 0 values).bind fun nodes => .refl _
  | _ => exact .refl _

/-- Further levels do not change what a data record contributes. -/
theorem flatten_approximates {fuel more : Nat} (hmore : fuel ≤ more) (record : Record)
    (properties : Fields Scalar) :
    Approximates (flatten schema fuel record properties)
      (flatten schema more record properties) := by
  induction fuel generalizing more record properties with
  | zero => exact .endless _ _
  | succ fuel ih =>
    obtain ⟨more, rfl⟩ : ∃ n, more = n + 1 := ⟨more - 1, by omega⟩
    rw [flatten, flatten]
    refine .foldlM (addDatum_approximates fun record others => ?_) properties
    exact ih (by omega) record others

/-- Further levels do not change the node of a record. -/
theorem node_approximates {fuel more : Nat} (hmore : fuel ≤ more) (record : Record) :
    Approximates (node schema fuel record) (node schema more record) := by
  induction fuel generalizing more record with
  | zero => exact .endless _ _
  | succ fuel ih =>
    obtain ⟨more, rfl⟩ : ∃ n, more = n + 1 := ⟨more - 1, by omega⟩
    rw [node, node]
    refine (Approximates.refl _).bind fun name => (Approximates.refl _).bind fun found =>
      (Approximates.refl _).bind fun span => ?_
    exact .foldlM (addField_approximates (fun record => ih (by omega) record)
      fun record properties => flatten_approximates (by omega) record properties) _

/-- With further levels conversion comes to the same, unless the levels have run out. -/
theorem convertWithin_approximates {fuel more : Nat} (hmore : fuel ≤ more) (value : Json) :
    Approximates (convertWithin schema fuel value) (convertWithin schema more value) := by
  cases value with
  | obj record =>
    exact (Approximates.refl (schema.repair record)).bind fun repaired =>
      node_approximates hmore repaired
  | _ => exact .refl _

/-- Any two numbers of levels that suffice lead to the same outcome. -/
theorem convertWithin_eq_of_ends {levels levels' : Nat} {value : Json}
    (h : Ends (convertWithin schema levels value))
    (h' : Ends (convertWithin schema levels' value)) :
    convertWithin schema levels value = convertWithin schema levels' value := by
  rcases Nat.le_total levels levels' with hle | hle
  · exact (convertWithin_approximates hle value h).symm
  · exact convertWithin_approximates hle value h'

/-! ## The reach of repairs -/

/-- The schema with repairs that do the same and are said to reach as far as `reach` says. -/
def withReach (reach : Repair → Nat) (schema : Schema) : Schema :=
  { schema with repairs := schema.repairs.map fun repair => { repair with reach := reach repair } }

/-- What repairs do to a record does not depend on their reach. -/
theorem repair_withReach (reach : Repair → Nat) (record : Record) :
    (schema.withReach reach).repair record = schema.repair record := by
  have hrun : ∀ (repairs : List Repair) (record : Record),
      Repair.runAll (repairs.map fun repair => { repair with reach := reach repair }) record =
        Repair.runAll repairs record := by
    intro repairs
    induction repairs with
    | nil => exact fun _ => rfl
    | cons repair rest ih =>
      intro record
      rw [List.map_cons, Repair.runAll, Repair.runAll]
      cases repair.run record with
      | ok repaired => exact ih repaired
      | error fault => rfl
  exact hrun schema.repairs record

theorem addDatum_withReach (reach : Repair → Nat) :
    addDatum (schema.withReach reach) nested = addDatum schema nested := by
  funext properties field
  obtain ⟨key, value⟩ := field
  cases value with
  | obj record =>
    simp only [addDatum, repair_withReach]
    rfl
  | _ => rfl

theorem items_withReach (reach : Repair → Nat) :
    items (schema.withReach reach) convert = items schema convert := by
  funext i values
  induction values generalizing i with
  | nil => rfl
  | cons value rest ih =>
    have hitem : item (schema.withReach reach) convert value = item schema convert value := by
      cases value with
      | obj record =>
        simp only [item, repair_withReach]
        rfl
      | _ => rfl
    rw [items, items, hitem, ih]

theorem addField_withReach (reach : Repair → Nat) :
    addField (schema.withReach reach) convert nested = addField schema convert nested := by
  funext node field
  obtain ⟨key, value⟩ := field
  cases value with
  | obj record =>
    simp only [addField, repair_withReach]
    rfl
  | arr values => simp only [addField, items_withReach]
  | _ => rfl

theorem flatten_withReach (reach : Repair → Nat) (fuel : Nat) :
    flatten (schema.withReach reach) fuel = flatten schema fuel := by
  induction fuel with
  | zero => rfl
  | succ fuel ih =>
    funext record properties
    rw [flatten, flatten, ih, addDatum_withReach]

theorem node_withReach (reach : Repair → Nat) (fuel : Nat) :
    node (schema.withReach reach) fuel = node schema fuel := by
  induction fuel with
  | zero => rfl
  | succ fuel ih =>
    funext record
    rw [node, node, ih, flatten_withReach, addField_withReach]
    rfl

/-- The reach of repairs is no part of what conversion does within a number of levels. -/
theorem convertWithin_withReach (reach : Repair → Nat) (fuel : Nat) (value : Json) :
    convertWithin (schema.withReach reach) fuel value = convertWithin schema fuel value := by
  cases value with
  | obj record =>
    rw [convertWithin, convertWithin, repair_withReach, node_withReach]
  | _ => rfl

/-- Once it suffices, the outcome does not depend on the reach that repairs are said to have. -/
theorem convert_withReach {reach : Repair → Nat} {value : Json}
    (h : Ends (schema.convert value)) (hreach : Ends ((schema.withReach reach).convert value)) :
    (schema.withReach reach).convert value = schema.convert value := by
  rw [Schema.convert, convertWithin_withReach] at hreach ⊢
  exact convertWithin_eq_of_ends hreach h

end Schema

end CanonicalTree
