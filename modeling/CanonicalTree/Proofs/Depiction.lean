import CanonicalTree.Proofs.Acceptance
import CanonicalTree.Proofs.Walk

/-!
# What becomes of a native tree

The nodes of a converted tree stand for the records of the native tree that are nodes: one for each,
under the same path and in the same order. A node shows exactly what its record says (`Depicts`):
the kind, the token and the position that can be read from it, its scalars and those of its data
records as properties, and a slot for each field that holds a node record or a sequence.
-/

namespace CanonicalTree

/-- No record in the value has two fields of the same name. -/
inductive Json.DistinctNames : Json → Prop
  | scalar {value : Json} : value.IsScalar → DistinctNames value
  | arr {items : List Json} : (∀ item ∈ items, DistinctNames item) → DistinctNames (.arr items)
  | obj {record : Record} : Fields.Distinct record → (∀ field ∈ record, DistinctNames field.2) →
      DistinctNames (.obj record)

namespace Schema

variable {keys : Keys} {isNode : Record → Bool}

/-! ## The records that are nodes -/

mutual

/-- The records under these fields of a node record that are nodes, with their paths. -/
def recordsBelow (keys : Keys) (isNode : Record → Bool) (record : Record) :
    List (String × Json) → List (Path × Record)
  | [] => []
  | (key, value) :: rest =>
    (if Lifts keys record (key, value) then []
      else (recordsIn keys isNode value).map (below (.field key))) ++
      recordsBelow keys isNode record rest

/-- The records in a field that are nodes. -/
def recordsIn (keys : Keys) (isNode : Record → Bool) : Json → List (Path × Record)
  | .obj record =>
    if isNode record then (Path.root, record) :: recordsBelow keys isNode record record else []
  | .arr items => recordsInItems keys isNode 0 items
  | _ => []

/-- The records among these items that are nodes, the first of which stands at index `i`. -/
def recordsInItems (keys : Keys) (isNode : Record → Bool) (i : Nat) :
    List Json → List (Path × Record)
  | [] => []
  | .obj record :: rest =>
    (if isNode record then (Path.root, record) :: recordsBelow keys isNode record record
      else []).map (below (.index i)) ++ recordsInItems keys isNode (i + 1) rest
  | _ :: rest => recordsInItems keys isNode (i + 1) rest

end

/-- The root record and the records below it that are nodes, with their paths. -/
def nodeRecords (keys : Keys) (isNode : Record → Bool) (record : Record) : List (Path × Record) :=
  (Path.root, record) :: recordsBelow keys isNode record record

theorem recordsBelow_eq (record : Record) (fields : List (String × Json)) :
    recordsBelow keys isNode record fields =
      (fields.filter fun field => ¬ Lifts keys record field).flatMap fun field =>
        (recordsIn keys isNode field.2).map (below (.field field.1)) := by
  induction fields with
  | nil => simp [recordsBelow]
  | cons field rest ih =>
    obtain ⟨key, value⟩ := field
    rw [recordsBelow, ih]
    by_cases hlifts : Lifts keys record (key, value)
    · simp [hlifts]
    · simp [hlifts]

/-- The records that are nodes are the record itself and those in its remaining fields, in order. -/
theorem nodeRecords_eq (record : Record) :
    nodeRecords keys isNode record =
      (Path.root, record) :: (remaining keys record).flatMap fun field =>
        (recordsIn keys isNode field.2).map (below (.field field.1)) := by
  rw [nodeRecords, recordsBelow_eq]
  rfl

theorem recordsIn_toJson (scalar : Scalar) : recordsIn keys isNode scalar.toJson = [] := by
  cases scalar <;> rfl

theorem recordsIn_obj (record : Record) :
    recordsIn keys isNode (.obj record) =
      if isNode record then nodeRecords keys isNode record else [] := by
  rw [recordsIn, nodeRecords]

theorem recordsInItems_obj (i : Nat) (record : Record) (rest : List Json) :
    recordsInItems keys isNode i (.obj record :: rest) =
      (if isNode record then nodeRecords keys isNode record else []).map (below (.index i)) ++
        recordsInItems keys isNode (i + 1) rest := by
  rw [recordsInItems, nodeRecords]

/-! ## What a node shows -/

/-- Whether a field is kept as a slot. -/
def holdsNodes (isNode : Record → Bool) (field : String × Json) : Bool :=
  match field.2 with
  | .obj record => isNode record
  | .arr _ => true
  | _ => false

/-- The slot has the name and the form of the field. -/
inductive Shapes : String × Json → String × Slot → Prop
  | single {key : String} {record : Record} {child : Node} :
      Shapes (key, .obj record) (key, .single child)
  | sequence {key : String} {items : List Json} {nodes : List Node} :
      nodes.length = items.length → Shapes (key, .arr items) (key, .sequence nodes)

/-- The node shows what the record says. -/
structure Depicts (keys : Keys) (isNode : Record → Bool) (record : Record) (node : Node) :
    Prop where
  kind : Fields.get? record keys.kind = some (.str node.kind)
  token : node.token = tokenText? keys record
  positioned : Positioned keys record
  position : node.position = spanOf keys record
  properties : node.properties = scalars isNode (remaining keys record)
  slots : List.Forall₂ Shapes ((remaining keys record).filter (holdsNodes isNode)) node.slots

/-- A record and a node stand under the same path, and the node shows what the record says. -/
def Corresponds (keys : Keys) (isNode : Record → Bool) (source : Path × Record)
    (part : Path × Node) : Prop :=
  source.1 = part.1 ∧ Depicts keys isNode source.2 part.2

variable {convert : Record → Except Failure Node}

/-- What a field yields has the shape of the field. -/
theorem Yields.shapes {field : String × Json} {slots : Fields Slot}
    (h : Yields isNode convert field slots) :
    List.Forall₂ Shapes ([field].filter (holdsNodes isNode)) slots := by
  cases h with
  | scalar hscalar =>
    obtain ⟨scalar, rfl⟩ := hscalar
    cases scalar <;> exact .nil
  | node hnode _ =>
    simp only [List.filter_singleton, holdsNodes, hnode]
    exact .cons .single .nil
  | sequence hnodes => exact .cons (.sequence hnodes.length_eq.symm) .nil
  | data hdata _ =>
    simp only [List.filter_singleton, holdsNodes, hdata]
    exact .nil

/-- What fields yield has the shapes of those fields that hold nodes. -/
theorem shapes_flatten {fields : List (String × Json)} {slots : List (Fields Slot)}
    (h : List.Forall₂ (Yields isNode convert) fields slots) :
    List.Forall₂ Shapes (fields.filter (holdsNodes isNode)) slots.flatten := by
  induction h with
  | nil => exact .nil
  | @cons field first rest others hfirst _ ih =>
    rw [← List.singleton_append, List.filter_append, List.flatten_cons]
    exact List.rel_append hfirst.shapes ih

/-! ## Records and nodes side by side -/

theorem correspond_below {sources : List (Path × Record)} {parts : List (Path × Node)}
    (segment : Segment) (h : List.Forall₂ (Corresponds keys isNode) sources parts) :
    List.Forall₂ (Corresponds keys isNode) (sources.map (below segment))
      (parts.map (below segment)) := by
  rw [List.forall₂_map_left_iff, List.forall₂_map_right_iff]
  refine h.imp fun source part hpart => ?_
  exact ⟨congrArg (segment :: ·) hpart.1, hpart.2⟩

/-- The nodes that conversion makes of these records correspond to the records in them. -/
def Depicted (keys : Keys) (isNode : Record → Bool) (convert : Record → Except Failure Node)
    (record : Record) : Prop :=
  ∀ node, convert record = .ok node →
    List.Forall₂ (Corresponds keys isNode) (nodeRecords keys isNode record) node.parts

/-- The records and nodes in the items of a sequence correspond if those of every item do. -/
theorem items_correspond {values : List Json} {nodes : List Node} {i : Nat}
    (hnodes : List.Forall₂ (ItemOf isNode convert) values nodes)
    (h : ∀ record, .obj record ∈ values → Depicted keys isNode convert record) :
    List.Forall₂ (Corresponds keys isNode) (recordsInItems keys isNode i values)
      (Node.walkNodes (fun node => [node]) (fun _ => []) i nodes) := by
  induction hnodes generalizing i with
  | nil => exact .nil
  | cons hitem _ ih =>
    obtain ⟨hnode, hconvert⟩ := hitem
    rw [recordsInItems_obj, if_pos hnode, Node.walkNodes]
    refine List.rel_append (correspond_below (.index i) ?_) (ih fun record hmem => ?_)
    · exact h _ List.mem_cons_self _ hconvert
    · exact h record (List.mem_cons_of_mem _ hmem)

/-- The records and nodes in a field correspond if those of every record in it do. -/
theorem Yields.correspond {field : String × Json} {slots : Fields Slot}
    (hyields : Yields isNode convert field slots)
    (h : ∀ record, HoldsRecord field.2 record → Depicted keys isNode convert record) :
    List.Forall₂ (Corresponds keys isNode)
      ((recordsIn keys isNode field.2).map (below (.field field.1)))
      (Node.walkSlots (fun node => [node]) (fun _ => []) slots) := by
  cases hyields with
  | scalar hscalar =>
    obtain ⟨scalar, rfl⟩ := hscalar
    rw [recordsIn_toJson]
    exact .nil
  | node hnode hconvert =>
    rw [recordsIn_obj, if_pos hnode, Node.walkSlots, Node.walkSlots, List.append_nil]
    exact correspond_below _ (h _ (Or.inl rfl) _ hconvert)
  | sequence hnodes =>
    rw [recordsIn, Node.walkSlots, Node.walkSlots, List.append_nil]
    refine correspond_below _ (items_correspond hnodes fun record hmem => ?_)
    exact h record (Or.inr ⟨_, rfl, hmem⟩)
  | data hdata _ =>
    rw [recordsIn_obj, hdata]
    exact .nil

/-- The records and nodes in fields correspond if those of every record in them do. -/
theorem fields_correspond {fields : List (String × Json)} {slots : List (Fields Slot)}
    (hyields : List.Forall₂ (Yields isNode convert) fields slots)
    (h : ∀ field ∈ fields, ∀ record, HoldsRecord field.2 record →
      Depicted keys isNode convert record) :
    List.Forall₂ (Corresponds keys isNode)
      (fields.flatMap fun field => (recordsIn keys isNode field.2).map (below (.field field.1)))
      (Node.walkSlots (fun node => [node]) (fun _ => []) slots.flatten) := by
  induction hyields with
  | nil => exact .nil
  | cons hfirst _ ih =>
    obtain ⟨hfield, hrest⟩ := List.forall_mem_cons.mp h
    rw [List.flatMap_cons, List.flatten_cons, Node.walkSlots_append]
    exact List.rel_append (hfirst.correspond hfield) (ih hrest)

/-- The nodes of a converted record correspond to the records in it. -/
theorem depicted {fuel : Nat} {record : Record} (hfuel : Json.depthFields record < fuel) :
    Depicted keys isNode (node (plain keys isNode) fuel) record := by
  induction fuel generalizing record with
  | zero => omega
  | succ fuel ih =>
    intro result h
    obtain ⟨name, slots, hkind, -, hpositioned, hslots, -, rfl⟩ :=
      (node_eq_ok_iff (Nat.le_of_lt_succ hfuel)).mp h
    rw [nodeRecords_eq, Node.parts_eq]
    refine .cons ⟨rfl, ⟨hkind.1, rfl, hpositioned, rfl, rfl, shapes_flatten hslots⟩⟩ ?_
    -- the records in the fields are less deep, so there is enough fuel for them
    refine fields_correspond hslots fun field hfield inner hinner => ih ?_
    have hdepth := depthFields_lt (mem_remaining.mp hfield).1 hinner
    omega

/-! ## Distinct names -/

/-- A record has distinct names throughout if its own are and those of its values are. -/
theorem distinctNames_obj {record : Record} :
    Json.DistinctNames (.obj record) ↔
      Fields.Distinct record ∧ ∀ field ∈ record, field.2.DistinctNames := by
  constructor
  · intro h
    cases h with
    | scalar hscalar => exact absurd hscalar (Json.not_isScalar_obj record)
    | obj hdistinct hfields => exact ⟨hdistinct, hfields⟩
  · rintro ⟨hdistinct, hfields⟩
    exact .obj hdistinct hfields

theorem distinctNames_arr {items : List Json} :
    Json.DistinctNames (.arr items) ↔ ∀ item ∈ items, item.DistinctNames := by
  constructor
  · intro h
    cases h with
    | scalar hscalar => exact absurd hscalar (Json.not_isScalar_arr items)
    | arr hitems => exact hitems
  · exact .arr

/-- A record that a value holds has distinct names throughout if the value has. -/
theorem HoldsRecord.distinctNames {value : Json} {record : Record} (h : HoldsRecord value record)
    (hvalue : value.DistinctNames) : Json.DistinctNames (.obj record) := by
  rcases h with rfl | ⟨items, rfl, hmem⟩
  · exact hvalue
  · exact distinctNames_arr.mp hvalue _ hmem

/-- The nodes of items are conversions of records among them. -/
theorem exists_record_of_mem_items {values : List Json} {nodes : List Node}
    (h : List.Forall₂ (ItemOf isNode convert) values nodes) :
    ∀ node ∈ nodes, ∃ record, .obj record ∈ values ∧ convert record = .ok node := by
  induction h with
  | nil => simp
  | cons hitem _ ih =>
    obtain ⟨-, hconvert⟩ := hitem
    refine List.forall_mem_cons.mpr ⟨⟨_, List.mem_cons_self, hconvert⟩, fun node hnode => ?_⟩
    obtain ⟨record, hmem, hrecord⟩ := ih node hnode
    exact ⟨record, List.mem_cons_of_mem _ hmem, hrecord⟩

/-- The children that a field adds are conversions of the records in it. -/
theorem Yields.exists_record {field : String × Json} {slots : Fields Slot}
    (h : Yields isNode convert field slots) {entry : String × Slot} (hentry : entry ∈ slots)
    {child : Node} (hchild : child ∈ entry.2.nodes) :
    ∃ record, HoldsRecord field.2 record ∧ convert record = .ok child := by
  cases h with
  | scalar _ => cases hentry
  | node _ hconvert =>
    rw [List.mem_singleton.mp hentry] at hchild
    rw [List.mem_singleton.mp hchild]
    exact ⟨_, Or.inl rfl, hconvert⟩
  | sequence hnodes =>
    rw [List.mem_singleton.mp hentry] at hchild
    obtain ⟨record, hmem, hconvert⟩ := exists_record_of_mem_items hnodes child hchild
    exact ⟨record, Or.inr ⟨_, rfl, hmem⟩, hconvert⟩
  | data _ _ => cases hentry

/-- A slot that fields yield together is yielded by one of them. -/
theorem exists_yields_of_mem_flatten {fields : List (String × Json)} {slots : List (Fields Slot)}
    (h : List.Forall₂ (Yields isNode convert) fields slots) {entry : String × Slot}
    (hentry : entry ∈ slots.flatten) :
    ∃ field ∈ fields, ∃ added, Yields isNode convert field added ∧ entry ∈ added := by
  induction h with
  | nil => cases hentry
  | @cons field first _ _ hfirst _ ih =>
    rw [List.flatten_cons] at hentry
    rcases List.mem_append.mp hentry with hmem | hmem
    · exact ⟨field, List.mem_cons_self, first, hfirst, hmem⟩
    · obtain ⟨other, hother, added, hadded, hmem⟩ := ih hmem
      exact ⟨other, List.mem_cons_of_mem _ hother, added, hadded, hmem⟩

/-- Slots are named after the fields whose shape they have. -/
theorem Shapes.keys_eq {fields : Record} {slots : Fields Slot}
    (h : List.Forall₂ Shapes fields slots) : Fields.keys slots = Fields.keys fields := by
  induction h with
  | nil => rfl
  | cons hfirst _ ih =>
    rw [Fields.keys_cons, Fields.keys_cons, ih]
    cases hfirst <;> rfl

/-- Distinct names in the native tree make a well-formed tree. -/
theorem node_wellFormed {fuel : Nat} {record : Record} {result : Node}
    (hfuel : Json.depthFields record < fuel) (hnames : Json.DistinctNames (.obj record))
    (h : node (plain keys isNode) fuel record = .ok result) : result.WellFormed := by
  induction fuel generalizing record result with
  | zero => omega
  | succ fuel ih =>
    obtain ⟨name, slots, -, -, -, hslots, hscalars, rfl⟩ :=
      (node_eq_ok_iff (Nat.le_of_lt_succ hfuel)).mp h
    obtain ⟨hdistinct, hfields⟩ := distinctNames_obj.mp hnames
    refine Node.wellFormed_iff.mpr ⟨hscalars, ?_, fun child hchild => ?_⟩
    · -- the slots are named after some of the fields
      have hsublist : ((remaining keys record).filter (holdsNodes isNode)).Sublist record :=
        List.filter_sublist.trans List.filter_sublist
      have hkeys := Shapes.keys_eq (shapes_flatten hslots)
      show (Fields.keys slots.flatten).Nodup
      rw [hkeys]
      exact hdistinct.sublist (hsublist.map Prod.fst)
    · obtain ⟨entry, hentry, hchild⟩ := Node.mem_children.mp hchild
      obtain ⟨field, hfield, added, hadded, hmem⟩ := exists_yields_of_mem_flatten hslots hentry
      obtain ⟨inner, hinner, hconvert⟩ := hadded.exists_record hmem hchild
      have hfield := (mem_remaining.mp hfield).1
      have hdepth := depthFields_lt hfield hinner
      exact ih (by omega) (hinner.distinctNames (hfields field hfield)) hconvert

/-- A record in the items of a sequence is in one of them, and its path begins with that index. -/
theorem mem_recordsInItems {items : List Json} {i : Nat} {path : Path} {inner : Record}
    (h : (path, inner) ∈ recordsInItems keys isNode i items) :
    ∃ j record rest, items[j]? = some (.obj record) ∧ path = .index (i + j) :: rest ∧
      (rest, inner) ∈ nodeRecords keys isNode record := by
  induction items generalizing i with
  | nil => cases h
  | cons item others ih =>
    have hothers : (path, inner) ∈ recordsInItems keys isNode (i + 1) others →
        ∃ j record rest, (item :: others)[j]? = some (.obj record) ∧
          path = .index (i + j) :: rest ∧ (rest, inner) ∈ nodeRecords keys isNode record := by
      intro h
      obtain ⟨j, record, rest, hj, rfl, hmem⟩ := ih h
      exact ⟨j + 1, record, rest, hj, by rw [Nat.add_right_comm, Nat.add_assoc], hmem⟩
    cases item with
    | obj record =>
      rw [recordsInItems_obj] at h
      rcases List.mem_append.mp h with h | h
      · split at h
        · obtain ⟨⟨rest, _⟩, hmem, heq⟩ := List.mem_map.mp h
          cases heq
          exact ⟨0, record, rest, rfl, rfl, hmem⟩
        · cases h
      · exact hothers h
    | _ => exact hothers h

/-- The listed paths lead to the listed records. -/
theorem follow_of_mem_nodeRecords {record inner : Record} {path : Path}
    (hnames : Json.DistinctNames (.obj record))
    (hmem : (path, inner) ∈ nodeRecords keys isNode record) :
    Json.follow path (.obj record) = some (.obj inner) := by
  -- by the depth of the record: the records inside are less deep
  induction hdepth : Json.depthFields record using Nat.strongRecOn
    generalizing record path with
  | ind depth ih =>
    subst hdepth
    obtain ⟨hdistinct, hfields⟩ := distinctNames_obj.mp hnames
    rw [nodeRecords_eq] at hmem
    rcases List.mem_cons.mp hmem with heq | hmem
    · cases heq
      rfl
    · obtain ⟨⟨key, value⟩, hfield, hmem⟩ := List.mem_flatMap.mp hmem
      obtain ⟨⟨rest, _⟩, hinner, heq⟩ := List.mem_map.mp hmem
      cases heq
      have hfield := (mem_remaining.mp hfield).1
      have hvalue := hfields _ hfield
      have hget : Fields.get? record key = some value := hdistinct.get?_eq_some_iff.mpr hfield
      rw [Json.follow, hget, Option.bind_some]
      rcases value.sorts with ⟨scalar, rfl⟩ | ⟨items, rfl⟩ | ⟨child, rfl⟩
      · rw [recordsIn_toJson] at hinner
        cases hinner
      · rw [recordsIn] at hinner
        obtain ⟨j, child, rest, hj, rfl, hrest⟩ := mem_recordsInItems hinner
        have hchild : HoldsRecord (.arr items) child :=
          Or.inr ⟨items, rfl, List.mem_of_getElem? hj⟩
        rw [Json.follow, Nat.zero_add, hj, Option.bind_some]
        exact ih _ (depthFields_lt hfield hchild) (hchild.distinctNames hvalue) hrest rfl
      · rw [recordsIn_obj] at hinner
        split at hinner
        · exact ih _ (depthFields_lt hfield (Or.inl rfl)) hvalue hinner rfl
        · cases hinner

/-! ## Converted trees -/

/-- The nodes of a converted tree correspond one by one to the records that are nodes. If no record
has a name twice, the tree is well formed, the paths are all different, and each of them leads to
its node in the tree and to its record in the native tree. -/
theorem convert_depicts (keys : Keys) (isNode : Record → Bool) (value : Json) (tree : Node)
    (h : (plain keys isNode).convert value = .ok tree) :
    ∃ record, value = .obj record ∧
      List.Forall₂ (Corresponds keys isNode) (nodeRecords keys isNode record) tree.parts ∧
      (value.DistinctNames → tree.WellFormed ∧ (tree.parts.map Prod.fst).Nodup ∧
        (∀ part ∈ tree.parts, tree.follow part.1 = some part.2) ∧
        ∀ source ∈ nodeRecords keys isNode record,
          Json.follow source.1 value = some (.obj source.2)) := by
  cases value with
  | obj record =>
    have hnode : node (plain keys isNode) (Json.depthFields record + 1) record = .ok tree := h
    refine ⟨record, rfl, depicted (Nat.lt_succ_self _) tree hnode, fun hnames => ?_⟩
    have hwell := node_wellFormed (Nat.lt_succ_self _) hnames hnode
    exact ⟨hwell, Node.nodup_parts hwell, fun part hpart => Node.follow_of_mem_parts hwell hpart,
      fun source hsource => follow_of_mem_nodeRecords hnames hsource⟩
  | _ => cases h

/-- The keys of a small example. -/
def callKeys : Keys :=
  { offset := some "pos", endOffset := some "end", tokens := ["text", "name"] }

/-- A call with a token that is not the preferred one, data and an argument. -/
def callRecord : Record :=
  [("args", .arr [.obj [("kind", .str "Number"), ("text", .num (.whole 1))]]),
    ("flags", .obj [("await", .bool false), ("hints", .obj [("inline", .str "never")])]),
    ("kind", .str "Call"), ("text", .null), ("pos", .num (.whole 4)), ("name", .str "f"),
    ("callee", .obj [("kind", .str "Name"), ("text", .str "f")]), ("pure", .bool true),
    ("end", .num (.whole 8))]

/-- What becomes of the call. -/
def callTree : Node :=
  { kind := "Call"
    token := some "f"
    position := some { start := { offset := 4 }, stop := some { offset := 8 } }
    properties := [("await", .bool false), ("inline", .str "never"), ("pure", .bool true)]
    slots := [("args", .sequence [{ kind := "Number", token := some "1" }]),
      ("callee", .single { kind := "Name", token := some "f" })] }

/-- The call has its callee and the item of its arguments below it, each on the path of its record.
-/
theorem convert_depicts_call :
    (plain callKeys (holdsString "kind")).convert (.obj callRecord) = .ok callTree ∧
      List.Forall₂ (Corresponds callKeys (holdsString "kind"))
        (nodeRecords callKeys (holdsString "kind") callRecord) callTree.parts ∧
      callTree.WellFormed ∧ (callTree.parts.map Prod.fst).Nodup ∧
      (∀ part ∈ callTree.parts, callTree.follow part.1 = some part.2) ∧
      ∀ source ∈ nodeRecords callKeys (holdsString "kind") callRecord,
        Json.follow source.1 (.obj callRecord) = some (.obj source.2) := by
  have hstr : ∀ text, Json.DistinctNames (.str text) := fun text => .scalar ⟨.str text, rfl⟩
  have hbool : ∀ flag, Json.DistinctNames (.bool flag) := fun flag => .scalar ⟨.bool flag, rfl⟩
  have hnum : ∀ n, Json.DistinctNames (.num n) := fun n => .scalar ⟨.num n, rfl⟩
  have hnull : Json.DistinctNames .null := .scalar ⟨.null, rfl⟩
  have hnames : Json.DistinctNames (.obj callRecord) := by
    simp [callRecord, distinctNames_obj, distinctNames_arr, Fields.Distinct, hstr, hbool, hnum,
      hnull]
  have hconvert : (plain callKeys (holdsString "kind")).convert (.obj callRecord) = .ok callTree :=
    rfl
  obtain ⟨record, heq, hparts, hdistinct⟩ := convert_depicts _ _ _ _ hconvert
  cases heq
  exact ⟨hconvert, hparts, hdistinct hnames⟩

end Schema

end CanonicalTree
