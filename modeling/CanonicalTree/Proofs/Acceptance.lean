import CanonicalTree.Proofs.Reading
import Mathlib.Data.List.Forall2

/-!
# Which native trees are accepted

Without repairs, a record can be made a node exactly if it meets a condition that speaks of its
fields alone: kind, token and position can be read, each remaining field holds a scalar, a node
record, a sequence of node records or a data record, and no two scalars that come together in one
node have the same key (`NodeRecord`). Conversion accepts these records and no others.
-/

namespace CanonicalTree.Schema

/-- A schema without repairs. -/
def plain (keys : Keys) (isNode : Record → Bool) : Schema :=
  { keys := keys, isNode := isNode }

/-! ## The condition -/

/-- A value that may stand in a data record. -/
inductive DataField (isNode : Record → Bool) : Json → Prop
  | scalar {value : Json} : value.IsScalar → DataField isNode value
  | data {record : Record} : isNode record = false → (∀ field ∈ record, DataField isNode field.2) →
      DataField isNode (.obj record)

/-- A record that may contribute its scalars to a node. -/
def DataRecord (isNode : Record → Bool) (record : Record) : Prop :=
  ∀ field ∈ record, DataField isNode field.2

mutual

/-- The scalars among some fields and in the data records among them, depth first. -/
def scalars (isNode : Record → Bool) : List (String × Json) → Fields Scalar
  | [] => []
  | (key, value) :: rest => scalarsOf isNode key value ++ scalars isNode rest

/-- The scalars that one field contributes. -/
def scalarsOf (isNode : Record → Bool) (key : String) : Json → Fields Scalar
  | .obj record => if isNode record then [] else scalars isNode record
  | .arr _ => []
  | .null => [(key, .null)]
  | .bool flag => [(key, .bool flag)]
  | .num number => [(key, .num number)]
  | .str text => [(key, .str text)]

end

mutual

/-- A record that can be made a node. -/
inductive NodeRecord (keys : Keys) (isNode : Record → Bool) : Record → Prop
  | intro {record : Record}
    (kind : ∃ kind, Fields.get? record keys.kind = some (.str kind) ∧ kind ≠ "")
    (token : ∀ value, tokenValue? keys record = some value → value.IsScalar)
    (position : Positioned keys record)
    (fields : ∀ field ∈ record, ¬ Lifts keys record field → NodeField keys isNode field.2)
    (properties : Fields.Distinct (scalars isNode (remaining keys record))) :
    NodeRecord keys isNode record

/-- A value that may stand in a node record. -/
inductive NodeField (keys : Keys) (isNode : Record → Bool) : Json → Prop
  | scalar {value : Json} : value.IsScalar → NodeField keys isNode value
  | node {record : Record} : isNode record = true → NodeRecord keys isNode record →
      NodeField keys isNode (.obj record)
  | sequence {items : List Json} : (∀ item ∈ items, NodeItem keys isNode item) →
      NodeField keys isNode (.arr items)
  | data {record : Record} : isNode record = false → DataRecord isNode record →
      NodeField keys isNode (.obj record)

/-- A value that may stand in a sequence. -/
inductive NodeItem (keys : Keys) (isNode : Record → Bool) : Json → Prop
  | intro {record : Record} : isNode record = true → NodeRecord keys isNode record →
      NodeItem keys isNode (.obj record)

end

variable {keys : Keys} {isNode : Record → Bool}

/-- A record may stand in a data record if it is one itself. -/
theorem dataField_obj {record : Record} :
    DataField isNode (.obj record) ↔ isNode record = false ∧ DataRecord isNode record := by
  constructor
  · intro h
    cases h with
    | scalar hscalar => exact absurd hscalar (Json.not_isScalar_obj record)
    | data hdata hrecord => exact ⟨hdata, hrecord⟩
  · rintro ⟨hdata, hrecord⟩
    exact .data hdata hrecord

theorem not_dataField_arr {items : List Json} : ¬ DataField isNode (.arr items) := by
  intro h
  cases h with
  | scalar hscalar => exact Json.not_isScalar_arr items hscalar

/-- A record in a node record is accepted as a node record or as a data record, whichever it is. -/
theorem nodeField_obj {record : Record} :
    NodeField keys isNode (.obj record) ↔
      (isNode record = true ∧ NodeRecord keys isNode record) ∨
        isNode record = false ∧ DataRecord isNode record := by
  constructor
  · intro h
    cases h with
    | scalar hscalar => exact absurd hscalar (Json.not_isScalar_obj record)
    | node hnode hrecord => exact Or.inl ⟨hnode, hrecord⟩
    | data hdata hrecord => exact Or.inr ⟨hdata, hrecord⟩
  · rintro (⟨hnode, hrecord⟩ | ⟨hdata, hrecord⟩)
    · exact .node hnode hrecord
    · exact .data hdata hrecord

theorem nodeField_arr {items : List Json} :
    NodeField keys isNode (.arr items) ↔ ∀ item ∈ items, NodeItem keys isNode item := by
  constructor
  · intro h
    cases h with
    | scalar hscalar => exact absurd hscalar (Json.not_isScalar_arr items)
    | sequence hitems => exact hitems
  · exact .sequence

@[simp] theorem scalarsOf_toJson (key : String) (value : Scalar) :
    scalarsOf isNode key value.toJson = [(key, value)] := by
  cases value <;> simp [Scalar.toJson, scalarsOf]

/-! ## Data records -/

/-- A value in a record is at most as deep as the fields of the record. -/
theorem depth_le_depthFields {record : Record} {field : String × Json} (h : field ∈ record) :
    field.2.depth ≤ Json.depthFields record := by
  induction record with
  | nil => cases h
  | cons first rest ih =>
    rw [Json.depthFields]
    rcases List.mem_cons.mp h with rfl | h
    · exact Nat.le_max_left _ _
    · exact Nat.le_trans (ih h) (Nat.le_max_right _ _)

theorem depth_le_depthItems {items : List Json} {item : Json} (h : item ∈ items) :
    item.depth ≤ Json.depthItems items := by
  induction items with
  | nil => cases h
  | cons first rest ih =>
    rw [Json.depthItems]
    rcases List.mem_cons.mp h with rfl | h
    · exact Nat.le_max_left _ _
    · exact Nat.le_trans (ih h) (Nat.le_max_right _ _)

/-- The value is this record, or a sequence with this record in it. -/
def HoldsRecord (value : Json) (record : Record) : Prop :=
  value = .obj record ∨ ∃ items, value = .arr items ∧ .obj record ∈ items

/-- A record that a field holds is less deep than the record that the field is in. -/
theorem depthFields_lt {record inner : Record} {field : String × Json} (hfield : field ∈ record)
    (hinner : HoldsRecord field.2 inner) : Json.depthFields inner < Json.depthFields record := by
  have hdepth := depth_le_depthFields hfield
  rcases hinner with heq | ⟨items, heq, hmem⟩
  · rw [heq, Json.depth] at hdepth
    omega
  · have hitem := depth_le_depthItems hmem
    rw [Json.depth] at hitem
    rw [heq, Json.depth] at hdepth
    omega

theorem distinct_of_append {properties others : Fields Scalar}
    (h : Fields.Distinct (properties ++ others)) : Fields.Distinct properties := by
  unfold Fields.Distinct Fields.keys at h ⊢
  rw [List.map_append] at h
  exact (List.nodup_append.mp h).1

/-- A scalar becomes a property if the node has none of that name. -/
theorem addProperty_eq_ok_iff {properties result : Fields Scalar} {key : String} {scalar : Scalar}
    (h : Fields.Distinct properties) :
    addProperty properties key scalar.toJson = .ok result ↔
      Fields.Distinct (properties ++ [(key, scalar)]) ∧ result = properties ++ [(key, scalar)] := by
  have hdistinct : Fields.Distinct (properties ++ [(key, scalar)]) ↔
      ¬ Fields.contains properties key = true := by
    unfold Fields.contains
    rw [Fields.get?_isSome_iff]
    unfold Fields.Distinct Fields.keys at *
    rw [List.map_append, List.nodup_append]
    constructor
    · rintro ⟨-, -, hne⟩ hmem
      exact hne key hmem key (by simp) rfl
    · intro hfresh
      refine ⟨h, by simp, fun first hfirst second hsecond heq => ?_⟩
      have hkey : second = key := by simpa using hsecond
      exact hfresh (hkey ▸ heq ▸ hfirst)
  unfold addProperty
  rw [Scalar.ofJson?_toJson, hdistinct]
  by_cases hcontains : Fields.contains properties key = true
  · simp [hcontains]
  · simp [hcontains, eq_comm]

/-- On this record, `flatten` adds the scalars to the properties if they come from a data record and
no key is there already. -/
def Flattens (isNode : Record → Bool)
    (flatten : Record → Fields Scalar → Except Failure (Fields Scalar)) (record : Record) : Prop :=
  ∀ properties result, Fields.Distinct properties →
    (flatten record properties = .ok result ↔ DataRecord isNode record ∧
      Fields.Distinct (properties ++ scalars isNode record) ∧
      result = properties ++ scalars isNode record)

/-- A field can be added to the properties if it is acceptable data and brings no property that is
there already. It adds its scalars. -/
theorem addDatum_eq_ok_iff {nested : Record → Fields Scalar → Except Failure (Fields Scalar)}
    {properties result : Fields Scalar} {field : String × Json} (h : Fields.Distinct properties)
    (hnested : ∀ record, field.2 = .obj record → Flattens isNode nested record) :
    addDatum (plain keys isNode) nested properties field = .ok result ↔
      DataField isNode field.2 ∧
        Fields.Distinct (properties ++ scalarsOf isNode field.1 field.2) ∧
        result = properties ++ scalarsOf isNode field.1 field.2 := by
  obtain ⟨key, value⟩ := field
  rcases value.sorts with ⟨scalar, rfl⟩ | ⟨items, rfl⟩ | ⟨record, rfl⟩
  · have hstep : addDatum (plain keys isNode) nested properties (key, scalar.toJson) =
        within (.field key) (addProperty properties key scalar.toJson) := by
      cases scalar <;> rfl
    have hfield : DataField isNode scalar.toJson := .scalar ⟨scalar, rfl⟩
    rw [hstep, within_eq_ok_iff, addProperty_eq_ok_iff h, scalarsOf_toJson]
    simp [hfield]
  · have hstep : addDatum (plain keys isNode) nested properties (key, .arr items) =
        .error (ShapeFault.sequenceInData.failure.under (.field key)) := rfl
    simp [hstep, not_dataField_arr]
  · have hstep : addDatum (plain keys isNode) nested properties (key, .obj record) =
        within (.field key) (if isNode record = true then .error ShapeFault.nodeInData.failure
          else nested record properties) := rfl
    rw [hstep, within_eq_ok_iff, dataField_obj, scalarsOf]
    by_cases hnode : isNode record = true
    · simp [hnode]
    · rw [if_neg hnode, if_neg hnode, hnested record rfl properties result h]
      simp [hnode]

/-- A data record adds its scalars in order, if it is acceptable and no name is given twice. -/
theorem foldlM_addDatum_eq_ok_iff {nested : Record → Fields Scalar → Except Failure (Fields Scalar)}
    {fields : List (String × Json)} {properties result : Fields Scalar}
    (h : Fields.Distinct properties)
    (hnested : ∀ key record, (key, .obj record) ∈ fields → Flattens isNode nested record) :
    fields.foldlM (addDatum (plain keys isNode) nested) properties = .ok result ↔
      DataRecord isNode fields ∧ Fields.Distinct (properties ++ scalars isNode fields) ∧
        result = properties ++ scalars isNode fields := by
  induction fields generalizing properties with
  | nil =>
    rw [List.foldlM_nil, pure_eq_ok_iff, scalars, List.append_nil]
    simp [DataRecord, h, eq_comm]
  | cons field rest ih =>
    have hfield := fun record (heq : field.2 = .obj record) =>
      hnested field.1 record (heq ▸ List.mem_cons_self)
    have hrest := fun key record hmem => hnested key record (List.mem_cons_of_mem field hmem)
    rw [List.foldlM_cons, bind_eq_ok_iff, scalars, ← List.append_assoc]
    constructor
    · rintro ⟨next, hnext, hfinal⟩
      obtain ⟨hdata, hdistinct, rfl⟩ := (addDatum_eq_ok_iff h hfield).mp hnext
      obtain ⟨hothers, hall⟩ := (ih hdistinct hrest).mp hfinal
      exact ⟨List.forall_mem_cons.mpr ⟨hdata, hothers⟩, hall⟩
    · rintro ⟨hdata, hdistinct, hresult⟩
      obtain ⟨hfirst, hothers⟩ := List.forall_mem_cons.mp hdata
      have hnext := distinct_of_append hdistinct
      exact ⟨_, (addDatum_eq_ok_iff h hfield).mpr ⟨hfirst, hnext, rfl⟩,
        (ih hnext hrest).mpr ⟨hothers, hdistinct, hresult⟩⟩

/-- Enough fuel flattens a record. -/
theorem flattens {fuel : Nat} {record : Record} (hfuel : Json.depthFields record < fuel) :
    Flattens isNode (flatten (plain keys isNode) fuel) record := by
  induction fuel generalizing record with
  | zero => omega
  | succ fuel ih =>
    intro properties result h
    rw [flatten]
    refine foldlM_addDatum_eq_ok_iff h fun key inner hinner => ih ?_
    have hdepth := depthFields_lt hinner (Or.inl rfl)
    omega

/-! ## Fields of a node record -/

/-- The item of a sequence is a node record, and `node` is what becomes of it. -/
inductive ItemOf (isNode : Record → Bool) (convert : Record → Except Failure Node) :
    Json → Node → Prop
  | intro {record : Record} {node : Node} : isNode record = true → convert record = .ok node →
      ItemOf isNode convert (.obj record) node

/-- The slots, one or none, that a field adds to a node. -/
inductive Yields (isNode : Record → Bool) (convert : Record → Except Failure Node) :
    String × Json → Fields Slot → Prop
  | scalar {key : String} {value : Json} : value.IsScalar → Yields isNode convert (key, value) []
  | node {key : String} {record : Record} {child : Node} : isNode record = true →
      convert record = .ok child → Yields isNode convert (key, .obj record) [(key, .single child)]
  | sequence {key : String} {values : List Json} {nodes : List Node} :
      List.Forall₂ (ItemOf isNode convert) values nodes →
      Yields isNode convert (key, .arr values) [(key, .sequence nodes)]
  | data {key : String} {record : Record} : isNode record = false → DataRecord isNode record →
      Yields isNode convert (key, .obj record) []

variable {convert : Record → Except Failure Node}

theorem yields_toJson {key : String} {scalar : Scalar} {slots : Fields Slot} :
    Yields isNode convert (key, scalar.toJson) slots ↔ slots = [] := by
  constructor
  · intro h
    generalize hvalue : scalar.toJson = value at h
    cases h with
    | scalar hscalar => rfl
    | data hdata hrecord => rfl
    | node hnode hconvert => exact absurd ⟨scalar, hvalue.symm⟩ (Json.not_isScalar_obj _)
    | sequence hnodes => exact absurd ⟨scalar, hvalue.symm⟩ (Json.not_isScalar_arr _)
  · rintro rfl
    exact .scalar ⟨scalar, rfl⟩

/-- A sequence yields one slot, with the nodes of its items. -/
theorem yields_arr {key : String} {values : List Json} {slots : Fields Slot} :
    Yields isNode convert (key, .arr values) slots ↔
      ∃ nodes, List.Forall₂ (ItemOf isNode convert) values nodes ∧
        slots = [(key, .sequence nodes)] := by
  constructor
  · intro h
    cases h with
    | scalar hscalar => exact absurd hscalar (Json.not_isScalar_arr values)
    | sequence hnodes => exact ⟨_, hnodes, rfl⟩
  · rintro ⟨nodes, hnodes, rfl⟩
    exact .sequence hnodes

/-- A node record yields one slot, with its node, and a data record none. -/
theorem yields_obj {key : String} {record : Record} {slots : Fields Slot} :
    Yields isNode convert (key, .obj record) slots ↔
      (isNode record = true ∧ ∃ child, convert record = .ok child ∧
        slots = [(key, .single child)]) ∨
      isNode record = false ∧ DataRecord isNode record ∧ slots = [] := by
  constructor
  · intro h
    cases h with
    | scalar hscalar => exact absurd hscalar (Json.not_isScalar_obj record)
    | node hnode hconvert => exact Or.inl ⟨hnode, _, hconvert, rfl⟩
    | data hdata hrecord => exact Or.inr ⟨hdata, hrecord, rfl⟩
  · rintro (⟨hnode, child, hconvert, rfl⟩ | ⟨hdata, hrecord, rfl⟩)
    · exact .node hnode hconvert
    · exact .data hdata hrecord

/-- Conversion of an item succeeds exactly if it is a node record that can be converted. -/
theorem item_eq_ok_iff {value : Json} {node : Node} :
    item (plain keys isNode) convert value = .ok node ↔ ItemOf isNode convert value node := by
  constructor
  · intro h
    cases value with
    | obj record =>
      have hstep : item (plain keys isNode) convert (.obj record) =
          if isNode record = true then convert record else .error ShapeFault.dataItem.failure := rfl
      rw [hstep] at h
      split at h
      · next hnode => exact .intro hnode h
      · cases h
    | _ => cases h
  · rintro ⟨hnode, hconvert⟩
    show (if isNode _ = true then convert _ else _) = _
    rw [if_pos hnode, hconvert]

/-- Items are converted one by one, whatever the index of the first of them. -/
theorem items_eq_ok_iff {values : List Json} {i : Nat} {nodes : List Node} :
    items (plain keys isNode) convert i values = .ok nodes ↔
      List.Forall₂ (ItemOf isNode convert) values nodes := by
  induction values generalizing i nodes with
  | nil =>
    rw [items, List.forall₂_nil_left_iff, Except.ok.injEq]
    exact eq_comm
  | cons value rest ih =>
    simp only [items, bind_eq_ok_iff, within_eq_ok_iff, item_eq_ok_iff, ih, pure_eq_ok_iff,
      List.forall₂_cons_left_iff]
    constructor
    · rintro ⟨node, hnode, others, hothers, rfl⟩
      exact ⟨node, others, hnode, hothers, rfl⟩
    · rintro ⟨node, others, hnode, hothers, rfl⟩
      exact ⟨node, hnode, others, hothers, rfl⟩

/-- A field can be added to a node if it yields slots and brings no property that is there already.
It adds its slots and its scalars and changes nothing else. -/
theorem addField_eq_ok_iff {flatten : Record → Fields Scalar → Except Failure (Fields Scalar)}
    {start result : Node} {field : String × Json} (h : Fields.Distinct start.properties)
    (hflatten : ∀ record, field.2 = .obj record → Flattens isNode flatten record) :
    addField (plain keys isNode) convert flatten start field = .ok result ↔
      ∃ slots, Yields isNode convert field slots ∧
        Fields.Distinct (start.properties ++ scalarsOf isNode field.1 field.2) ∧
        result = { start with
          properties := start.properties ++ scalarsOf isNode field.1 field.2
          slots := start.slots ++ slots } := by
  obtain ⟨key, value⟩ := field
  -- scalars and data records add properties, sequences and node records add a slot
  rcases value.sorts with ⟨scalar, rfl⟩ | ⟨values, rfl⟩ | ⟨record, rfl⟩
  · have hstep : addField (plain keys isNode) convert flatten start (key, scalar.toJson) =
        within (.field key) (addNodeProperty start key scalar.toJson) := by
      cases scalar <;> rfl
    rw [hstep, within_eq_ok_iff, scalarsOf_toJson]
    unfold addNodeProperty
    simp only [bind_eq_ok_iff, pure_eq_ok_iff, addProperty_eq_ok_iff h, yields_toJson]
    constructor
    · rintro ⟨properties, ⟨hdistinct, rfl⟩, rfl⟩
      exact ⟨[], rfl, hdistinct, by rw [List.append_nil]⟩
    · rintro ⟨slots, rfl, hdistinct, rfl⟩
      exact ⟨_, ⟨hdistinct, rfl⟩, by rw [List.append_nil]⟩
  · have hstep : addField (plain keys isNode) convert flatten start (key, .arr values) =
        within (.field key) (do
          let nodes ← items (plain keys isNode) convert 0 values
          pure (addSlot start key (.sequence nodes))) := rfl
    rw [hstep, within_eq_ok_iff, scalarsOf, List.append_nil]
    simp only [bind_eq_ok_iff, pure_eq_ok_iff, items_eq_ok_iff, yields_arr]
    constructor
    · rintro ⟨nodes, hnodes, rfl⟩
      exact ⟨_, ⟨nodes, hnodes, rfl⟩, h, rfl⟩
    · rintro ⟨slots, ⟨nodes, hnodes, rfl⟩, -, rfl⟩
      exact ⟨nodes, hnodes, rfl⟩
  · have hstep : addField (plain keys isNode) convert flatten start (key, .obj record) =
        within (.field key) (if isNode record = true then do
            let child ← convert record
            pure (addSlot start key (.single child))
          else do
            let properties ← flatten record start.properties
            pure { start with properties := properties }) := rfl
    rw [hstep, within_eq_ok_iff, scalarsOf]
    simp only [yields_obj]
    by_cases hnode : isNode record = true
    · simp only [if_pos hnode, List.append_nil, bind_eq_ok_iff, pure_eq_ok_iff]
      constructor
      · rintro ⟨child, hchild, rfl⟩
        exact ⟨_, Or.inl ⟨hnode, child, hchild, rfl⟩, h, rfl⟩
      · rintro ⟨slots, ⟨-, child, hchild, rfl⟩ | ⟨hdata, -⟩, -, rfl⟩
        · exact ⟨child, hchild, rfl⟩
        · rw [hnode] at hdata
          cases hdata
    · simp only [if_neg hnode, bind_eq_ok_iff, pure_eq_ok_iff, hflatten record rfl _ _ h]
      constructor
      · rintro ⟨properties, ⟨hdata, hdistinct, rfl⟩, rfl⟩
        exact ⟨[], Or.inr ⟨Bool.not_eq_true _ ▸ hnode, hdata, rfl⟩, hdistinct,
          by rw [List.append_nil]⟩
      · rintro ⟨slots, ⟨hyes, -⟩ | ⟨-, hdata, rfl⟩, hdistinct, rfl⟩
        · exact absurd hyes hnode
        · exact ⟨_, ⟨hdata, hdistinct, rfl⟩, by rw [List.append_nil]⟩

/-- A node record adds its slots and its scalars in order, if no property is given twice. -/
theorem foldlM_addField_eq_ok_iff
    {flatten : Record → Fields Scalar → Except Failure (Fields Scalar)}
    {fields : List (String × Json)} {start result : Node} (h : Fields.Distinct start.properties)
    (hflatten : ∀ key record, (key, .obj record) ∈ fields → Flattens isNode flatten record) :
    fields.foldlM (addField (plain keys isNode) convert flatten) start = .ok result ↔
      ∃ slots, List.Forall₂ (Yields isNode convert) fields slots ∧
        Fields.Distinct (start.properties ++ scalars isNode fields) ∧
        result = { start with
          properties := start.properties ++ scalars isNode fields
          slots := start.slots ++ slots.flatten } := by
  induction fields generalizing start with
  | nil =>
    rw [List.foldlM_nil, pure_eq_ok_iff, scalars, List.append_nil]
    simp only [List.forall₂_nil_left_iff, exists_eq_left, List.flatten_nil, List.append_nil, h,
      true_and]
    cases start
    exact eq_comm
  | cons field rest ih =>
    have hfield := fun record (heq : field.2 = .obj record) =>
      hflatten field.1 record (heq ▸ List.mem_cons_self)
    have hrest := fun key record hmem => hflatten key record (List.mem_cons_of_mem field hmem)
    rw [List.foldlM_cons, bind_eq_ok_iff, scalars, ← List.append_assoc]
    constructor
    · rintro ⟨next, hnext, hfinal⟩
      obtain ⟨slots, hslots, hdistinct, rfl⟩ := (addField_eq_ok_iff h hfield).mp hnext
      obtain ⟨others, hothers, hall, rfl⟩ := (ih hdistinct hrest).mp hfinal
      refine ⟨slots :: others, .cons hslots hothers, hall, ?_⟩
      rw [List.flatten_cons, ← List.append_assoc]
    · rintro ⟨slots, hslots, hdistinct, rfl⟩
      obtain ⟨first, others, hfirst, hothers, rfl⟩ := List.forall₂_cons_left_iff.mp hslots
      have hnext := distinct_of_append hdistinct
      refine ⟨_, (addField_eq_ok_iff h hfield).mpr ⟨first, hfirst, hnext, rfl⟩,
        (ih hnext hrest).mpr ⟨others, hothers, hdistinct, ?_⟩⟩
      rw [List.flatten_cons, ← List.append_assoc]

/-! ## Nodes -/

/-- Enough fuel converts a record if everything can be read from it that is needed, and the node
consists of what was read. -/
theorem node_eq_ok_iff {fuel : Nat} {record : Record} {result : Node}
    (hfuel : Json.depthFields record ≤ fuel) :
    node (plain keys isNode) (fuel + 1) record = .ok result ↔
      ∃ name slots, (Fields.get? record keys.kind = some (.str name) ∧ name ≠ "") ∧
        (∀ value, tokenValue? keys record = some value → value.IsScalar) ∧
        Positioned keys record ∧
        List.Forall₂ (Yields isNode (node (plain keys isNode) fuel)) (remaining keys record) slots ∧
        Fields.Distinct (scalars isNode (remaining keys record)) ∧
        result =
          { kind := name
            token := tokenText? keys record
            position := spanOf keys record
            properties := scalars isNode (remaining keys record)
            slots := slots.flatten } := by
  have hflatten : ∀ key inner, (key, .obj inner) ∈ remaining keys record →
      Flattens isNode (flatten (plain keys isNode) fuel) inner := by
    intro key inner hinner
    have hdepth := depthFields_lt (mem_remaining.mp hinner).1 (Or.inl rfl)
    exact flattens (by omega)
  -- no property is there before the fields are added
  have hempty : Fields.Distinct ([] : Fields Scalar) := List.nodup_nil
  have hkeys : (plain keys isNode).keys = keys := rfl
  rw [node, hkeys]
  simp only [bind_eq_ok_iff, kind_eq_ok_iff, token_eq_ok_iff, position_eq_ok_iff]
  constructor
  · rintro ⟨name, hkind, found, ⟨hscalar, hkey, htext⟩, span, ⟨hpositioned, rfl⟩, h⟩
    rw [hkey, filter_isLifted, foldlM_addField_eq_ok_iff hempty hflatten] at h
    obtain ⟨slots, hslots, hdistinct, rfl⟩ := h
    exact ⟨name, slots, hkind, hscalar, hpositioned, hslots, hdistinct, by rw [htext]; rfl⟩
  · rintro ⟨name, slots, hkind, hscalar, hpositioned, hslots, hdistinct, rfl⟩
    obtain ⟨found, hkey, htext⟩ := exists_token hscalar
    refine ⟨name, hkind, found, ⟨hscalar, hkey, htext⟩, _, ⟨hpositioned, rfl⟩, ?_⟩
    rw [hkey, filter_isLifted, foldlM_addField_eq_ok_iff hempty hflatten]
    exact ⟨slots, hslots, hdistinct, by rw [htext]; rfl⟩

/-- An item has a node exactly if it is an acceptable item, provided that this holds of records. -/
theorem exists_itemOf_iff {value : Json}
    (h : ∀ record, value = .obj record →
      ((∃ node, convert record = .ok node) ↔ NodeRecord keys isNode record)) :
    (∃ node, ItemOf isNode convert value node) ↔ NodeItem keys isNode value := by
  constructor
  · rintro ⟨node, hnode, hconvert⟩
    exact .intro hnode ((h _ rfl).mp ⟨node, hconvert⟩)
  · rintro ⟨hnode, hrecord⟩
    obtain ⟨node, hconvert⟩ := (h _ rfl).mpr hrecord
    exact ⟨node, .intro hnode hconvert⟩

/-- If conversion accepts the node records among the values of a field, it accepts the field. -/
theorem exists_yields_iff {key : String} {value : Json}
    (h : ∀ record, HoldsRecord value record →
      ((∃ node, convert record = .ok node) ↔ NodeRecord keys isNode record)) :
    (∃ slots, Yields isNode convert (key, value) slots) ↔ NodeField keys isNode value := by
  rcases value.sorts with ⟨scalar, rfl⟩ | ⟨values, rfl⟩ | ⟨record, rfl⟩
  · have hfield : NodeField keys isNode scalar.toJson := .scalar ⟨scalar, rfl⟩
    simp [yields_toJson, hfield]
  · have hitem : ∀ item ∈ values, (∃ node, ItemOf isNode convert item node) ↔
        NodeItem keys isNode item := fun item hitem =>
      exists_itemOf_iff fun record heq => h record (Or.inr ⟨values, rfl, heq ▸ hitem⟩)
    rw [nodeField_arr, ← forall₂_congr hitem, ← exists_forall₂_iff]
    simp only [yields_arr]
    constructor
    · rintro ⟨_, nodes, hnodes, -⟩
      exact ⟨nodes, hnodes⟩
    · rintro ⟨nodes, hnodes⟩
      exact ⟨_, nodes, hnodes, rfl⟩
  · rw [nodeField_obj, ← h record (Or.inl rfl)]
    simp only [yields_obj]
    constructor
    · rintro ⟨_, ⟨hnode, child, hchild, -⟩ | ⟨hdata, hrecord, -⟩⟩
      · exact Or.inl ⟨hnode, child, hchild⟩
      · exact Or.inr ⟨hdata, hrecord⟩
    · rintro (⟨hnode, child, hchild⟩ | ⟨hdata, hrecord⟩)
      · exact ⟨_, Or.inl ⟨hnode, child, hchild, rfl⟩⟩
      · exact ⟨_, Or.inr ⟨hdata, hrecord, rfl⟩⟩

/-- The conditions on a node record, one by one. -/
theorem nodeRecord_iff {record : Record} :
    NodeRecord keys isNode record ↔
      (∃ kind, Fields.get? record keys.kind = some (.str kind) ∧ kind ≠ "") ∧
      (∀ value, tokenValue? keys record = some value → value.IsScalar) ∧
      Positioned keys record ∧
      (∀ field ∈ record, ¬ Lifts keys record field → NodeField keys isNode field.2) ∧
      Fields.Distinct (scalars isNode (remaining keys record)) := by
  constructor
  · rintro ⟨hkind, htoken, hposition, hfields, hdistinct⟩
    exact ⟨hkind, htoken, hposition, hfields, hdistinct⟩
  · rintro ⟨hkind, htoken, hposition, hfields, hdistinct⟩
    exact .intro hkind htoken hposition hfields hdistinct

/-- Enough fuel converts exactly the node records. -/
theorem exists_node_iff {fuel : Nat} {record : Record} (hfuel : Json.depthFields record < fuel) :
    (∃ result, node (plain keys isNode) fuel record = .ok result) ↔
      NodeRecord keys isNode record := by
  induction fuel generalizing record with
  | zero => omega
  | succ fuel ih =>
    -- the records inside the fields are less deep than the record itself
    have hyields : ∀ field ∈ record,
        (∃ slots, Yields isNode (node (plain keys isNode) fuel) field slots) ↔
          NodeField keys isNode field.2 := by
      intro field hfield
      refine exists_yields_iff fun inner hinner => ih ?_
      have hdepth := depthFields_lt hfield hinner
      omega
    have hremaining : (∃ slots, List.Forall₂ (Yields isNode (node (plain keys isNode) fuel))
        (remaining keys record) slots) ↔
          ∀ field ∈ record, ¬ Lifts keys record field → NodeField keys isNode field.2 := by
      rw [exists_forall₂_iff]
      constructor
      · intro h field hfield hlifts
        exact (hyields field hfield).mp (h field (mem_remaining.mpr ⟨hfield, hlifts⟩))
      · intro h field hfield
        obtain ⟨hfield, hlifts⟩ := mem_remaining.mp hfield
        exact (hyields field hfield).mpr (h field hfield hlifts)
    rw [nodeRecord_iff, ← hremaining]
    simp only [node_eq_ok_iff (Nat.le_of_lt_succ hfuel)]
    constructor
    · rintro ⟨_, name, slots, hkind, htoken, hposition, hslots, hdistinct, -⟩
      exact ⟨⟨name, hkind⟩, htoken, hposition, ⟨slots, hslots⟩, hdistinct⟩
    · rintro ⟨⟨name, hkind⟩, htoken, hposition, ⟨slots, hslots⟩, hdistinct⟩
      exact ⟨_, name, slots, hkind, htoken, hposition, hslots, hdistinct, rfl⟩

/-- Without repairs, conversion accepts exactly the node records. -/
theorem exists_convert_iff (keys : Keys) (isNode : Record → Bool) (value : Json) :
    (∃ tree, (plain keys isNode).convert value = .ok tree) ↔
      ∃ record, value = .obj record ∧ NodeRecord keys isNode record := by
  cases value with
  | obj record =>
    have hconvert : (plain keys isNode).convert (.obj record) =
        node (plain keys isNode) (Json.depthFields record + 1) record := rfl
    rw [hconvert, exists_node_iff (Nat.lt_succ_self _)]
    simp
  | _ =>
    constructor
    · rintro ⟨tree, ⟨⟩⟩
    · rintro ⟨record, ⟨⟩, -⟩

end CanonicalTree.Schema
