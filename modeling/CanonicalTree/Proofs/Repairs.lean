import CanonicalTree.Proofs.Acceptance
import CanonicalTree.Proofs.Edits
import CanonicalTree.Proofs.Rewriting

/-!
# Repairing first

Conversion repairs each record when it comes to it, just before it decides what the record is. The
same tree, and the same failure, results if all records of a value are repaired beforehand, from the
outside in, and conversion makes no repairs at all (`convert_deepRepair`). So conversion repairs
every record that it looks at, and none twice.

This holds for repairs that do not nest records more deeply, for which repairing a whole value comes
to an end, and if a record is known for a node by a string in one of its fields, which repairs of
its parts cannot change.
-/

namespace CanonicalTree

/-! ## Depth -/

namespace Json

theorem depth_arr (items : List Json) : (Json.arr items).depth = depthItems items + 1 := by
  rw [depth]

theorem depth_obj (record : Record) : (Json.obj record).depth = depthFields record + 1 := by
  rw [depth]

/-- The fields are as deep as the deepest of them. -/
theorem depthFields_le_iff {record : Record} {n : Nat} :
    depthFields record ≤ n ↔ ∀ field ∈ record, field.2.depth ≤ n := by
  induction record with
  | nil => simp [depthFields]
  | cons field rest ih => rw [depthFields, Nat.max_le, ih, List.forall_mem_cons]

/-- Storing a value makes a record no deeper than it and the value were. -/
theorem depthFields_insert_le {record : Record} {value : Json} {n : Nat} (key : String)
    (hrecord : depthFields record ≤ n) (hvalue : value.depth ≤ n) :
    depthFields (Fields.insert record key value) ≤ n := by
  rw [depthFields_le_iff] at hrecord ⊢
  exact Fields.forall_insert (Q := fun value : Json => value.depth ≤ n) key hrecord hvalue

theorem depthFields_erase_le (record : Record) (key : String) :
    depthFields (Fields.erase record key) ≤ depthFields record := by
  have hrecord := depthFields_le_iff.mp (Nat.le_refl (depthFields record))
  rw [depthFields_le_iff]
  exact Fields.forall_erase (Q := fun value : Json => value.depth ≤ _) key hrecord

end Json

namespace Repair

/-- The repair does not nest a record more deeply. -/
def Shallow (repair : Repair) : Prop :=
  ∀ record repaired, repair.run record = .ok repaired →
    Json.depthFields repaired ≤ Json.depthFields record

theorem shallow_reject (name field detail : String) : (reject name field detail).Shallow := by
  intro record repaired h
  simp only [reject] at h
  split at h
  · cases h
  · cases h
    exact Nat.le_refl _

theorem shallow_drop (name field : String) : (drop name field).Shallow := by
  intro record repaired h
  cases h
  exact Json.depthFields_erase_le record field

theorem shallow_set (name field : String) {value : Json} (hvalue : value.IsScalar) :
    (set name field value).Shallow := by
  intro record repaired h
  cases h
  obtain ⟨scalar, rfl⟩ := hvalue
  refine Json.depthFields_insert_le field (Nat.le_refl _) ?_
  cases scalar <;> exact Nat.zero_le _

/-- A set of flags holds scalars only. -/
theorem depthFields_flagSet {field : String} {entries : List Json} {i : Nat} {done set : Record}
    (hdone : Json.depthFields done ≤ 0) (h : flagSet field i done entries = .ok set) :
    Json.depthFields set ≤ 0 := by
  induction entries generalizing i done with
  | nil =>
    rw [flagSet] at h
    cases h
    exact hdone
  | cons entry rest ih =>
    cases entry with
    | str flag =>
      rw [flagSet] at h
      have hflag : (Json.bool true).depth ≤ 0 := Nat.le_refl 0
      exact ih (Json.depthFields_insert_le flag hdone hflag) h
    | _ => cases h

theorem shallow_flags (field : String) : (flags field).Shallow := by
  intro record repaired h
  simp only [flags] at h
  split at h
  · next entries hentries =>
    obtain ⟨set, hset, hrepaired⟩ := bind_eq_ok_iff.mp h
    cases pure_eq_ok_iff.mp hrepaired
    -- the sequence that gives way was at least as deep as the set
    have hold := Schema.depth_le_depthFields (Fields.mem_of_get? hentries)
    have hempty : Json.depthFields [] ≤ 0 := Nat.le_refl 0
    have hnew := depthFields_flagSet hempty hset
    refine Json.depthFields_insert_le field (Nat.le_refl _) ?_
    rw [Json.depth_arr] at hold
    rw [Json.depth_obj]
    omega
  · cases h
    exact Nat.le_refl _

/-- Count under `field`, in every record that has a number there, how often the record has been
repaired. -/
def tally (field : String) : Repair where
  name := "tally"
  run record :=
    match Fields.get? record field with
    | some (.num (.whole n)) => .ok (Fields.insert record field (.num (.whole (n + 1))))
    | _ => .ok record

/-- Counting makes no record deeper. -/
theorem shallow_tally (field : String) : (tally field).Shallow := by
  intro record repaired h
  simp only [tally] at h
  split at h
  · cases h
    exact Json.depthFields_insert_le field (Nat.le_refl _) (Nat.zero_le _)
  · cases h
    exact Nat.le_refl _

/-- Repairs that make no record deeper do not do so in a row. -/
theorem depthFields_runAll {repairs : List Repair} (hshallow : ∀ repair ∈ repairs, repair.Shallow)
    {record repaired : Record} (h : runAll repairs record = .ok repaired) :
    Json.depthFields repaired ≤ Json.depthFields record := by
  induction repairs generalizing record with
  | nil =>
    cases h
    exact Nat.le_refl _
  | cons repair rest ih =>
    obtain ⟨hrepair, hrest⟩ := List.forall_mem_cons.mp hshallow
    rw [runAll] at h
    split at h
    · next next hnext => exact Nat.le_trans (ih hrest h) (hrepair record next hnext)
    · cases h

end Repair

/-! ## Repairing all records of a value -/

/-- Replace the value of every field. -/
def replaceFields (replace : Json → Except Failure Json) :
    List (String × Json) → Except Failure Record
  | [] => .ok []
  | (key, value) :: rest => do
    let value ← within (.field key) (replace value)
    let rest ← replaceFields replace rest
    pure ((key, value) :: rest)

/-- Replace every item of a sequence, the first of which stands at index `i`. -/
def replaceItems (replace : Json → Except Failure Json) (i : Nat) :
    List Json → Except Failure (List Json)
  | [] => .ok []
  | item :: rest => do
    let item ← within (.index i) (replace item)
    let rest ← replaceItems replace (i + 1) rest
    pure (item :: rest)

/-- Repair a record and then everything in the repaired record, descending at most `fuel` levels. -/
def deepRepairWithin (repairs : List Repair) (fuel : Nat) (value : Json) : Except Failure Json :=
  match fuel, value with
  | fuel + 1, .obj record => do
    let repaired ← Repair.runAll repairs record
    let fields ← replaceFields (deepRepairWithin repairs fuel) repaired
    pure (.obj fields)
  | fuel + 1, .arr items => do
    let items ← replaceItems (deepRepairWithin repairs fuel) 0 items
    pure (.arr items)
  | 0, .obj _ => .error (.here .endlessRepair)
  | 0, .arr _ => .error (.here .endlessRepair)
  | _, scalar => .ok scalar

/-- Repair every record of a value, from the outside in. Its depth is enough for repairs that do not
nest records more deeply (`deepRepair_obj`, `deepRepair_arr`). -/
def deepRepair (repairs : List Repair) (value : Json) : Except Failure Json :=
  deepRepairWithin repairs value.depth value

/-- Fields are replaced alike if each of their values is. -/
theorem replaceFields_congr {f g : Json → Except Failure Json} {record : Record}
    (h : ∀ field ∈ record, f field.2 = g field.2) :
    replaceFields f record = replaceFields g record := by
  induction record with
  | nil => rfl
  | cons field rest ih =>
    obtain ⟨hfield, hrest⟩ := List.forall_mem_cons.mp h
    rw [replaceFields, replaceFields, hfield, ih hrest]

theorem replaceItems_congr {f g : Json → Except Failure Json} {items : List Json} {i : Nat}
    (h : ∀ item ∈ items, f item = g item) : replaceItems f i items = replaceItems g i items := by
  induction items generalizing i with
  | nil => rfl
  | cons item rest ih =>
    obtain ⟨hitem, hrest⟩ := List.forall_mem_cons.mp h
    rw [replaceItems, replaceItems, hitem, ih hrest]

/-- The fields have the same names, and the second values are what becomes of the first. -/
def Replaced (replace : Json → Except Failure Json) : Record → Record → Prop :=
  List.Forall₂ fun field result => field.1 = result.1 ∧ replace field.2 = .ok result.2

/-- Replaced fields keep their names, and every value is replaced. -/
theorem replaceFields_eq_ok {replace : Json → Except Failure Json} {record results : Record}
    (h : replaceFields replace record = .ok results) : Replaced replace record results := by
  induction record generalizing results with
  | nil =>
    rw [replaceFields] at h
    cases h
    exact .nil
  | cons field rest ih =>
    rw [replaceFields] at h
    obtain ⟨value, hvalue, h⟩ := bind_eq_ok_iff.mp h
    obtain ⟨others, hothers, hresults⟩ := bind_eq_ok_iff.mp h
    cases pure_eq_ok_iff.mp hresults
    exact .cons ⟨rfl, within_eq_ok_iff.mp hvalue⟩ (ih hothers)

theorem replaceItems_eq_ok {replace : Json → Except Failure Json} {items results : List Json}
    {i : Nat} (h : replaceItems replace i items = .ok results) :
    List.Forall₂ (fun item result => replace item = .ok result) items results := by
  induction items generalizing i results with
  | nil =>
    rw [replaceItems] at h
    cases h
    exact .nil
  | cons item rest ih =>
    rw [replaceItems] at h
    obtain ⟨value, hvalue, h⟩ := bind_eq_ok_iff.mp h
    obtain ⟨others, hothers, hresults⟩ := bind_eq_ok_iff.mp h
    cases pure_eq_ok_iff.mp hresults
    exact .cons (within_eq_ok_iff.mp hvalue) (ih hothers)

/-- A scalar needs no repair. -/
theorem deepRepairWithin_toJson (repairs : List Repair) (fuel : Nat) (scalar : Scalar) :
    deepRepairWithin repairs fuel scalar.toJson = .ok scalar.toJson := by
  cases scalar <;> cases fuel <;> rfl

section Shallow

variable {repairs : List Repair} (hshallow : ∀ repair ∈ repairs, repair.Shallow)

include hshallow

/-- Beyond the depth of the value, fuel makes no difference. -/
theorem deepRepairWithin_of_le {fuel more : Nat} {value : Json} (h : value.depth ≤ fuel)
    (hmore : fuel ≤ more) :
    deepRepairWithin repairs more value = deepRepairWithin repairs fuel value := by
  induction fuel generalizing value more with
  | zero =>
    rcases value.sorts with ⟨scalar, rfl⟩ | ⟨items, rfl⟩ | ⟨record, rfl⟩
    · rw [deepRepairWithin_toJson, deepRepairWithin_toJson]
    · rw [Json.depth_arr] at h
      omega
    · rw [Json.depth_obj] at h
      omega
  | succ fuel ih =>
    obtain ⟨more, rfl⟩ : ∃ n, more = n + 1 := ⟨more - 1, by omega⟩
    have hmore := Nat.le_of_succ_le_succ hmore
    rcases value.sorts with ⟨scalar, rfl⟩ | ⟨items, rfl⟩ | ⟨record, rfl⟩
    · rw [deepRepairWithin_toJson, deepRepairWithin_toJson]
    · rw [Json.depth_arr] at h
      rw [deepRepairWithin, deepRepairWithin, replaceItems_congr fun item hitem => ih ?_ hmore]
      have hitem := Schema.depth_le_depthItems hitem
      omega
    · rw [Json.depth_obj] at h
      rw [deepRepairWithin, deepRepairWithin]
      cases hrepaired : Repair.runAll repairs record with
      | error failure => rfl
      | ok repaired =>
        -- the repaired record is no deeper than the record
        have hdepth := Repair.depthFields_runAll hshallow hrepaired
        have hfields : replaceFields (deepRepairWithin repairs more) repaired =
            replaceFields (deepRepairWithin repairs fuel) repaired := by
          refine replaceFields_congr fun field hfield => ih ?_ hmore
          have hfield := Schema.depth_le_depthFields hfield
          omega
        exact congrArg (· >>= fun fields => pure (Json.obj fields)) hfields

/-- To repair a record deeply is to repair it and then to repair its values deeply. -/
theorem deepRepair_obj (record : Record) :
    deepRepair repairs (.obj record) = (do
      let repaired ← Repair.runAll repairs record
      let fields ← replaceFields (deepRepair repairs) repaired
      pure (.obj fields)) := by
  unfold deepRepair
  rw [Json.depth_obj, deepRepairWithin]
  cases hrepaired : Repair.runAll repairs record with
  | error failure => rfl
  | ok repaired =>
    have hdepth := Repair.depthFields_runAll hshallow hrepaired
    have hfields : replaceFields (deepRepairWithin repairs (Json.depthFields record)) repaired =
        replaceFields (fun value => deepRepairWithin repairs value.depth value) repaired := by
      refine replaceFields_congr fun field hfield => ?_
      have hfield := Nat.le_trans (Schema.depth_le_depthFields hfield) hdepth
      exact deepRepairWithin_of_le hshallow (Nat.le_refl _) hfield
    exact congrArg (· >>= fun fields => pure (Json.obj fields)) hfields

/-- A sequence is repaired item by item. -/
theorem deepRepair_arr (items : List Json) :
    deepRepair repairs (.arr items) = (do
      let items ← replaceItems (deepRepair repairs) 0 items
      pure (.arr items)) := by
  have hitems : replaceItems (deepRepairWithin repairs (Json.depthItems items)) 0 items =
      replaceItems (deepRepair repairs) 0 items :=
    replaceItems_congr fun item hitem =>
      deepRepairWithin_of_le hshallow (Nat.le_refl _) (Schema.depth_le_depthItems hitem)
  rw [deepRepair, Json.depth_arr, deepRepairWithin, hitems]

/-- What deep repair makes of a value, one level deep. -/
inductive Repaired (repairs : List Repair) : Json → Json → Prop
  | scalar (scalar : Scalar) : Repaired repairs scalar.toJson scalar.toJson
  | arr {items results : List Json} :
      List.Forall₂ (fun item result => deepRepair repairs item = .ok result) items results →
      Repaired repairs (.arr items) (.arr results)
  | obj {record repaired fields : Record} : Repair.runAll repairs record = .ok repaired →
      Replaced (deepRepair repairs) repaired fields → Repaired repairs (.obj record) (.obj fields)

/-- What a deep repair makes of a value, by its constructors. -/
theorem repaired_of_deepRepair {value fixed : Json} (h : deepRepair repairs value = .ok fixed) :
    Repaired repairs value fixed := by
  rcases value.sorts with ⟨scalar, rfl⟩ | ⟨items, rfl⟩ | ⟨record, rfl⟩
  · rw [deepRepair, deepRepairWithin_toJson] at h
    cases h
    exact .scalar scalar
  · rw [deepRepair_arr hshallow] at h
    obtain ⟨results, hresults, hfixed⟩ := bind_eq_ok_iff.mp h
    cases pure_eq_ok_iff.mp hfixed
    exact .arr (replaceItems_eq_ok hresults)
  · rw [deepRepair_obj hshallow] at h
    obtain ⟨repaired, hrepaired, h⟩ := bind_eq_ok_iff.mp h
    obtain ⟨fields, hfields, hfixed⟩ := bind_eq_ok_iff.mp h
    cases pure_eq_ok_iff.mp hfixed
    exact .obj hrepaired (replaceFields_eq_ok hfields)

end Shallow

/-! ## What shows without a look into the values -/

/-- The value with nothing in it. -/
def Json.surface : Json → Json
  | .arr _ => .arr []
  | .obj _ => .obj []
  | scalar => scalar

@[simp] theorem Json.isNull_surface (value : Json) : value.surface.isNull = value.isNull := by
  cases value <;> rfl

/-- On the surface a repaired value looks like the value. -/
theorem Repaired.surface_eq {repairs : List Repair} {value fixed : Json}
    (h : Repaired repairs value fixed) : value.surface = fixed.surface := by
  cases h <;> rfl

namespace Schema

/-- The record with nothing in its values. -/
def surface (record : Record) : Record :=
  Fields.mapValues Json.surface record

/-- Whether a record holds a string shows on the surface. -/
theorem holdsString_surface (field : String) (record : Record) :
    holdsString field (surface record) = holdsString field record := by
  unfold holdsString surface
  rw [Fields.get?_mapValues]
  cases Fields.get? record field with
  | none => rfl
  | some value => cases value <;> rfl

theorem kind_surface (keys : Keys) (record : Record) :
    kind keys (surface record) = kind keys record := by
  unfold kind surface
  rw [Fields.get?_mapValues]
  cases Fields.get? record keys.kind with
  | none => rfl
  | some value => cases value <;> rfl

theorem tokenField?_surface (candidates : List String) (record : Record) :
    tokenField? candidates (surface record) =
      (tokenField? candidates record).map fun found => (found.1, found.2.surface) := by
  unfold tokenField?
  rw [List.map_findSome?]
  congr 1
  funext key
  unfold surface
  simp only [Fields.get?_mapValues, Function.comp_apply]
  cases Fields.get? record key with
  | none => rfl
  | some value => cases value <;> rfl

theorem token_surface (keys : Keys) (record : Record) :
    token keys (surface record) = token keys record := by
  unfold token
  rw [tokenField?_surface]
  cases tokenField? keys.tokens record with
  | none => rfl
  | some found =>
    obtain ⟨key, value⟩ := found
    cases value <;> rfl

theorem word_surface (record : Record) (key : Option String) :
    word (surface record) key = word record key := by
  cases key with
  | none => rfl
  | some key =>
    simp only [word, surface, Fields.get?_mapValues]
    cases Fields.get? record key with
    | none => rfl
    | some value => cases value <;> rfl

/-- The position shows on the surface. -/
theorem position_surface (keys : Keys) (record : Record) :
    position keys (surface record) = position keys record := by
  simp only [position, reading, lineOrColumn, word_surface]

/-- A record with repaired values looks the same on the surface. -/
theorem surface_eq_of_replaced {repairs : List Repair}
    (hshallow : ∀ repair ∈ repairs, repair.Shallow) {record fields : Record}
    (h : Replaced (deepRepair repairs) record fields) : surface record = surface fields := by
  induction h with
  | nil => rfl
  | @cons field result rest others hfirst _ ih =>
    obtain ⟨hkey, hvalue⟩ := hfirst
    have hvalue := (repaired_of_deepRepair hshallow hvalue).surface_eq
    show (field.1, field.2.surface) :: surface rest = (result.1, result.2.surface) :: surface others
    rw [hkey, hvalue, ih]

/-- Steps over fields and over their repaired values come to the same if each of them does. -/
theorem foldlM_eq_of_replaced {repairs : List Repair} {σ : Type}
    (hshallow : ∀ repair ∈ repairs, repair.Shallow) {f g : σ → String × Json → Except Failure σ}
    {record fields : Record} (h : Replaced (deepRepair repairs) record fields)
    (hstep : ∀ key value fixed, (key, value) ∈ record → (key, fixed) ∈ fields →
      Repaired repairs value fixed → ∀ state, f state (key, value) = g state (key, fixed))
    (state : σ) : record.foldlM f state = fields.foldlM g state := by
  refine foldlM_congr_of_forall₂ h ?_ state
  rintro ⟨key, value⟩ hvalue ⟨_, fixed⟩ hfixed ⟨rfl, hrepair⟩
  exact hstep key value fixed hvalue hfixed (repaired_of_deepRepair hshallow hrepair)

/-! ## Repairing on the way and repairing first -/

/-- What `f` makes of a repaired record, `g` makes of it when everything in it is repaired, too, if
the records are less deep than `n` and `m`. -/
def Coincide {α : Type} (repairs : List Repair) (n m : Nat) (f g : Record → α) : Prop :=
  ∀ repaired fields, Json.depthFields repaired < n → Json.depthFields fields < m →
    Replaced (deepRepair repairs) repaired fields → f repaired = g fields

section Coincide

/-- Functions that coincide still do after a further one. -/
theorem Coincide.map {α β : Type} {repairs : List Repair} {n m : Nat} {f g : Record → α} (k : α → β)
    (h : Coincide repairs n m f g) :
    Coincide repairs n m (fun record => k (f record)) (fun record => k (g record)) :=
  fun repaired fields hn hm hfields => congrArg k (h repaired fields hn hm hfields)

theorem coincide_const {α : Type} {repairs : List Repair} {n m : Nat} (a : α) :
    Coincide repairs n m (fun _ => a) (fun _ => a) :=
  fun _ _ _ _ _ => rfl

variable {schema : Schema} (hshallow : ∀ repair ∈ schema.repairs, repair.Shallow)
  (hisNode : ∀ record, schema.isNode (surface record) = schema.isNode record)

include hshallow

/-- If a record is repaired and looked at next, it makes no difference whether everything in it is
repaired in between. -/
theorem repair_bind_eq {α : Type} {n m : Nat} {f g : Record → Except Failure α}
    {record repaired fields : Record} (hn : (Json.obj record).depth ≤ n)
    (hm : (Json.obj fields).depth ≤ m)
    (hrepaired : Repair.runAll schema.repairs record = .ok repaired)
    (hfields : Replaced (deepRepair schema.repairs) repaired fields)
    (h : Coincide schema.repairs n m f g) : (schema.repair record >>= f) = g fields := by
  rw [Json.depth_obj] at hn hm
  have hdepth := Repair.depthFields_runAll hshallow hrepaired
  rw [repair, hrepaired]
  exact h repaired fields (by omega) (by omega) hfields

/-- Deep repair changes neither which fields are lifted nor the order of the others. -/
theorem replaced_filter_isLifted {keys : Keys} {tokenKey : Option String} {record fields : Record}
    (h : Replaced (deepRepair schema.repairs) record fields) :
    Replaced (deepRepair schema.repairs)
      (record.filter fun field => !isLifted keys tokenKey field)
      (fields.filter fun field => !isLifted keys tokenKey field) := by
  refine List.rel_filter (fun field result hresult => ?_) h
  have hvalue := (repaired_of_deepRepair hshallow hresult.2).surface_eq
  have hnull : field.2.isNull = result.2.isNull := by
    rw [← Json.isNull_surface, hvalue, Json.isNull_surface]
  simp only [isLifted, hresult.1, hnull]

include hisNode

/-- Whether a record is a node does not change when its values are repaired. -/
theorem isNode_eq_of_replaced {record fields : Record}
    (h : Replaced (deepRepair schema.repairs) record fields) :
    schema.isNode record = schema.isNode fields := by
  rw [← hisNode record, surface_eq_of_replaced hshallow h, hisNode]

/-- The same for what is done with nodes and what is done with data. -/
theorem coincide_ite {α : Type} {n m : Nat} {onNode onNode' onData onData' : Record → α}
    (hnode : Coincide schema.repairs n m onNode onNode')
    (hdata : Coincide schema.repairs n m onData onData') :
    Coincide schema.repairs n m
      (fun record => if schema.isNode record then onNode record else onData record)
      (fun record => if schema.isNode record then onNode' record else onData' record) := by
  intro repaired fields hn hm h
  simp only [isNode_eq_of_replaced hshallow hisNode h, hnode repaired fields hn hm h,
    hdata repaired fields hn hm h]

/-- A field of a data record is added alike before and after its repair. -/
theorem addDatum_eq_of_repaired {n m : Nat}
    {nested nested' : Record → Fields Scalar → Except Failure (Fields Scalar)}
    (hnested : Coincide schema.repairs n m nested nested') {key : String} {value fixed : Json}
    (hn : value.depth ≤ n) (hm : fixed.depth ≤ m) (h : Repaired schema.repairs value fixed)
    (properties : Fields Scalar) :
    addDatum schema nested properties (key, value) =
      addDatum (plain schema.keys schema.isNode) nested' properties (key, fixed) := by
  cases h with
  | scalar scalar => cases scalar <;> rfl
  | arr _ => rfl
  | obj hrepaired hfields =>
    have hboth := coincide_ite hshallow hisNode
      (coincide_const (.error ShapeFault.nodeInData.failure)) (hnested.map (· properties))
    exact congrArg (within _) (repair_bind_eq hshallow hn hm hrepaired hfields hboth)

/-- A data record contributes the same before and after the repair of its values. -/
theorem flatten_coincide (fuel fuel' : Nat) :
    Coincide schema.repairs fuel fuel' (flatten schema fuel)
      (flatten (plain schema.keys schema.isNode) fuel') := by
  induction fuel generalizing fuel' with
  | zero => exact fun _ _ hn => absurd hn (Nat.not_lt_zero _)
  | succ fuel ih =>
    intro repaired fields hn hm h
    obtain ⟨fuel', rfl⟩ : ∃ n, fuel' = n + 1 := ⟨fuel' - 1, by omega⟩
    funext properties
    rw [flatten, flatten]
    refine foldlM_eq_of_replaced hshallow h (fun key value fixed hvalue hfixed hrepair => ?_) _
    have hvalue : value.depth ≤ _ := depth_le_depthFields hvalue
    have hfixed : fixed.depth ≤ _ := depth_le_depthFields hfixed
    exact addDatum_eq_of_repaired hshallow hisNode (ih fuel') (by omega) (by omega) hrepair

section Children

variable {n m : Nat} {convert convert' : Record → Except Failure Node}
  (hconvert : Coincide schema.repairs n m convert convert')

include hconvert

theorem item_eq_of_repaired {value fixed : Json} (hn : value.depth ≤ n) (hm : fixed.depth ≤ m)
    (h : Repaired schema.repairs value fixed) :
    item schema convert value = item (plain schema.keys schema.isNode) convert' fixed := by
  cases h with
  | scalar scalar => cases scalar <;> rfl
  | arr _ => rfl
  | obj hrepaired hfields =>
    have hboth := coincide_ite hshallow hisNode hconvert
      (coincide_const (.error ShapeFault.dataItem.failure))
    exact repair_bind_eq hshallow hn hm hrepaired hfields hboth

theorem items_eq_of_repaired {values results : List Json} {i : Nat}
    (hn : Json.depthItems values ≤ n) (hm : Json.depthItems results ≤ m)
    (h : List.Forall₂ (fun value fixed => deepRepair schema.repairs value = .ok fixed)
      values results) :
    items schema convert i values = items (plain schema.keys schema.isNode) convert' i results := by
  induction h generalizing i with
  | nil => rfl
  | cons hfirst _ ih =>
    rw [Json.depthItems, Nat.max_le] at hn hm
    have hfirst := repaired_of_deepRepair hshallow hfirst
    rw [items, items, item_eq_of_repaired hshallow hisNode hconvert hn.1 hm.1 hfirst, ih hn.2 hm.2]

/-- A field of a node record is added alike before and after its repair. -/
theorem addField_eq_of_repaired
    {nested nested' : Record → Fields Scalar → Except Failure (Fields Scalar)}
    (hnested : Coincide schema.repairs n m nested nested') {key : String} {value fixed : Json}
    (hn : value.depth ≤ n) (hm : fixed.depth ≤ m) (h : Repaired schema.repairs value fixed)
    (node : Node) :
    addField schema convert nested node (key, value) =
      addField (plain schema.keys schema.isNode) convert' nested' node (key, fixed) := by
  cases h with
  | scalar scalar => cases scalar <;> rfl
  | arr hitems =>
    rw [Json.depth_arr] at hn hm
    have hitems := items_eq_of_repaired (i := 0) hshallow hisNode hconvert (by omega) (by omega)
      hitems
    simp only [addField, hitems]
  | obj hrepaired hfields =>
    have hchild := hconvert.map (· >>= fun child => pure (addSlot node key (.single child)))
    have hdata := hnested.map fun add =>
      add node.properties >>= fun properties => pure { node with properties := properties }
    have hboth := coincide_ite hshallow hisNode hchild hdata
    exact congrArg (within _) (repair_bind_eq hshallow hn hm hrepaired hfields hboth)

end Children

/-- A record has the same node before and after the repair of its values. -/
theorem node_coincide (fuel fuel' : Nat) :
    Coincide schema.repairs fuel fuel' (node schema fuel)
      (node (plain schema.keys schema.isNode) fuel') := by
  induction fuel generalizing fuel' with
  | zero => exact fun _ _ hn => absurd hn (Nat.not_lt_zero _)
  | succ fuel ih =>
    intro repaired fields hn hm h
    obtain ⟨fuel', rfl⟩ : ∃ n, fuel' = n + 1 := ⟨fuel' - 1, by omega⟩
    -- kind, token and position show on the surface
    have hsurface := surface_eq_of_replaced hshallow h
    have hkind : kind schema.keys repaired = kind schema.keys fields := by
      rw [← kind_surface, hsurface, kind_surface]
    have htoken : token schema.keys repaired = token schema.keys fields := by
      rw [← token_surface, hsurface, token_surface]
    have hposition : position schema.keys repaired = position schema.keys fields := by
      rw [← position_surface, hsurface, position_surface]
    have hkeys : (plain schema.keys schema.isNode).keys = schema.keys := rfl
    rw [node, node, hkeys, hkind, htoken, hposition]
    congr 1; funext name; congr 1; funext found; congr 1; funext span
    refine foldlM_eq_of_replaced hshallow (replaced_filter_isLifted hshallow h)
      (fun key value fixed hvalue hfixed hrepair => ?_) _
    have hvalue : value.depth ≤ _ := depth_le_depthFields (List.mem_of_mem_filter hvalue)
    have hfixed : fixed.depth ≤ _ := depth_le_depthFields (List.mem_of_mem_filter hfixed)
    exact addField_eq_of_repaired hshallow hisNode (ih fuel')
      (flatten_coincide hshallow hisNode fuel fuel') (by omega) (by omega) hrepair

/-- A value is converted alike with repairs and, once repaired throughout, without them. -/
theorem convert_eq_of_repaired {value fixed : Json} (h : Repaired schema.repairs value fixed) :
    schema.convert value = (plain schema.keys schema.isNode).convert fixed := by
  cases h with
  | scalar scalar => cases scalar <;> rfl
  | arr _ => rfl
  | @obj record repaired fields hrepaired hfields =>
    have hnode := node_coincide hshallow hisNode (levels schema (.obj record))
      (Json.obj fields).depth
    exact repair_bind_eq hshallow (Nat.le_add_right _ _) (Nat.le_refl _) hrepaired hfields hnode

end Coincide

/-- Repairing each record on the way and repairing all records beforehand come to the same, be it a
tree or a failure, if no repair makes records deeper and nodes are told by a string in one of their
fields. -/
theorem convert_deepRepair (keys : Keys) (field : String) (repairs : List Repair)
    (hshallow : ∀ repair ∈ repairs, repair.Shallow) (value fixed : Json)
    (h : deepRepair repairs value = .ok fixed) :
    ({ keys := keys, isNode := holdsString field, repairs := repairs } : Schema).convert value =
      (plain keys (holdsString field)).convert fixed := by
  refine convert_eq_of_repaired hshallow (holdsString_surface field) ?_
  exact repaired_of_deepRepair hshallow h

/-- Every record is counted once, and a field that is set in a data record, too, stands in the way
there. -/
theorem convert_deepRepair_tally_and_set :
    let counting := [Repair.flags "modifiers", Repair.drop "drop_raw" "raw",
      Repair.reject "no_macros" "macro" "unsupported", Repair.tally "seen"]
    let block : Json :=
      .obj [("kind", .str "block"), ("modifiers", .arr [.str "async"]),
        ("meta", .obj [("inner", .obj [("seen", .num (.whole 0))])]),
        ("body", .arr [.obj [("kind", .str "return"), ("raw", .null), ("seen", .num (.whole 4))]])]
    let marking := [Repair.set "mark" "marked" (.bool true)]
    let call : Json := .obj [("kind", .str "call"), ("meta", .obj [("inner", .obj [])])]
    (({ isNode := holdsString "kind", repairs := counting } : Schema).convert block = .ok
      { kind := "block"
        properties := [("async", .bool true), ("seen", .num (.whole 1))]
        slots := [("body", .sequence
          [{ kind := "return", properties := [("seen", .num (.whole 5))] }])] }) ∧
    (({ isNode := holdsString "kind", repairs := marking } : Schema).convert call = .error
      ⟨[.field "meta", .field "marked"], .invalidShape "property 'marked' is defined twice"⟩) := by
  intro counting block marking call
  have hcounting : ∀ repair ∈ counting, repair.Shallow := by
    simp only [counting, List.forall_mem_cons]
    exact ⟨Repair.shallow_flags _, Repair.shallow_drop _ _, Repair.shallow_reject _ _ _,
      Repair.shallow_tally _, by simp⟩
  have hmarking : ∀ repair ∈ marking, repair.Shallow :=
    List.forall_mem_singleton.mpr (Repair.shallow_set _ _ ⟨.bool true, rfl⟩)
  have hblock : deepRepair counting block = .ok
      (.obj [("kind", .str "block"), ("modifiers", .obj [("async", .bool true)]),
        ("meta", .obj [("inner", .obj [("seen", .num (.whole 1))])]),
        ("body", .arr [.obj [("kind", .str "return"), ("seen", .num (.whole 5))]])]) := by cbv
  have hcall : deepRepair marking call = .ok
      (.obj [("kind", .str "call"),
        ("meta", .obj [("inner", .obj [("marked", .bool true)]), ("marked", .bool true)]),
        ("marked", .bool true)]) := by cbv
  exact ⟨(convert_deepRepair {} "kind" counting hcounting block _ hblock).trans rfl,
    (convert_deepRepair {} "kind" marking hmarking call _ hcall).trans rfl⟩

end Schema

end CanonicalTree
