import CanonicalTree.Proofs.Depiction

/-!
# Where faults are found

The path of a failure of conversion leads to a value of the native tree, and this value shows what
is wrong (`Exhibits`): a record without a kind, a record with a positional field that cannot be
used, or a value that does not fit where it stands.

A property that is defined twice is found at the second of the two scalars. What a node is given by
its own fields and by its data records is listed in `scalarParts`, in the order in which it is
given, and the fault is that a scalar before has the same key (`Repeats`).
-/

namespace CanonicalTree

theorem Fields.keys_append {α : Type} (fields others : Fields α) :
    keys (fields ++ others) = keys fields ++ keys others :=
  List.map_append

/-- A path can be followed in two parts. -/
theorem Json.follow_append (path rest : Path) (value : Json) :
    value.follow (path ++ rest) = (value.follow path).bind (follow rest) := by
  induction path generalizing value with
  | nil => rfl
  | cons segment path ih =>
    cases value with
    | obj record =>
      cases segment with
      | field name =>
        rw [List.cons_append, follow, follow, Option.bind_assoc]
        exact Option.bind_congr fun value _ => ih value
      | index i => rfl
    | arr items =>
      cases segment with
      | field name => rfl
      | index i =>
        rw [List.cons_append, follow, follow, Option.bind_assoc]
        exact Option.bind_congr fun value _ => ih value
    | _ => cases segment <;> rfl

theorem Json.follow_field {record : Record} {place : Path} {value : Json} {key : String}
    {found : Json} (hplace : value.follow place = some (.obj record))
    (hkey : Fields.get? record key = some found) :
    value.follow (place ++ [.field key]) = some found := by
  rw [follow_append, hplace, Option.bind_some, follow, hkey, Option.bind_some, follow]

theorem Json.follow_index {items : List Json} {place : Path} {value : Json} {i : Nat} {found : Json}
    (hplace : value.follow place = some (.arr items)) (hi : items[i]? = some found) :
    value.follow (place ++ [.index i]) = some found := by
  rw [follow_append, hplace, Option.bind_some, follow, hi, Option.bind_some, follow]

/-- Everything in a value with distinct names throughout has distinct names throughout. -/
theorem Json.DistinctNames.of_follow {value found : Json} {path : Path} (h : value.DistinctNames)
    (hfound : value.follow path = some found) : found.DistinctNames := by
  induction path generalizing value with
  | nil =>
    cases hfound
    exact h
  | cons segment rest ih =>
    cases value with
    | obj record =>
      cases segment with
      | field name =>
        obtain ⟨inner, hinner, hrest⟩ := Option.bind_eq_some_iff.mp hfound
        exact ih ((Schema.distinctNames_obj.mp h).2 _ (Fields.mem_of_get? hinner)) hrest
      | index i => cases hfound
    | arr items =>
      cases segment with
      | field name => cases hfound
      | index i =>
        obtain ⟨inner, hinner, hrest⟩ := Option.bind_eq_some_iff.mp hfound
        exact ih (Schema.distinctNames_arr.mp h _ (List.mem_of_getElem? hinner)) hrest
    | _ => cases segment <;> cases hfound

namespace Schema

variable {keys : Keys} {isNode : Record → Bool}

/-! ## What cannot be read -/

section Readers

variable {record : Record} {failure : Failure}

/-- Reading the kind fails only if the record has none. -/
theorem kind_eq_error (h : kind keys record = .error failure) :
    (¬ ∃ name, Fields.get? record keys.kind = some (.str name) ∧ name ≠ "") ∧
      failure = .here (.missingKind keys.kind) := by
  constructor
  · rintro ⟨name, hname⟩
    rw [kind_eq_ok_iff.mpr hname] at h
    cases h
  · unfold kind at h
    split at h
    · split at h
      · cases h
        rfl
      · cases h
    · cases h
      rfl

/-- Reading the token fails only over a value that is no scalar. -/
theorem token_eq_error (h : token keys record = .error failure) :
    ∃ key value, tokenKey? keys record = some key ∧ given record key = some value ∧
      ¬ value.IsScalar ∧ failure = (ShapeFault.token value).failure.under (.field key) := by
  unfold token at h
  rw [tokenField?_eq, ← tokenKey?] at h
  cases hkey : tokenKey? keys record with
  | none =>
    rw [hkey] at h
    cases h
  | some key =>
    obtain ⟨value, hgiven, -, hnull⟩ := exists_tokenValue hkey
    rw [hkey, Option.bind_some, hgiven, Option.map_some] at h
    refine ⟨key, value, rfl, hgiven, fun hscalar => ?_, ?_⟩
    · obtain ⟨scalar, hscalar⟩ := Json.isScalar_iff.mp hscalar
      obtain ⟨text, htext⟩ := text?_isSome hnull hscalar
      simp only [hscalar, Option.bind_some, htext] at h
      cases h
    · simp only at h
      split at h
      · cases h
      · cases h
        rfl

/-- The failure is about this field, in which the record says something. -/
def Complains (record : Record) (key : Option String) (failure : Failure) : Prop :=
  ∃ name fault, key = some name ∧ (given record name).isSome = true ∧
    failure = PositionFault.failure name fault

/-- A whole number is found only under a named field that the record gives. -/
theorem isSome_given_of_wholeAt {key : Option String} (h : (wholeAt record key).isSome = true) :
    ∃ name, key = some name ∧ (given record name).isSome = true := by
  obtain ⟨n, hn⟩ := Option.isSome_iff_exists.mp h
  obtain ⟨name, hname, hgiven⟩ := Option.bind_eq_some_iff.mp (wholeAt_eq_some_iff.mp hn)
  exact ⟨name, hname, Option.isSome_of_eq_some hgiven⟩

theorem word_eq_error {key : Option String} (h : word record key = .error failure) :
    Complains record key failure := by
  cases key with
  | none => cases h
  | some name =>
    refine ⟨name, ?_⟩
    simp only [word] at h
    unfold given
    split at h
    · cases h
    · cases h
    · cases h
    · next hget =>
      cases h
      exact ⟨_, rfl, by rw [hget]; rfl, rfl⟩
    · next value hnull hwhole hnumber hget =>
      cases h
      refine ⟨_, rfl, ?_, rfl⟩
      rw [hget]
      cases value with
      | null => exact (hnull rfl).elim
      | _ => rfl

/-- Reading a line or a column fails only over what the record says about it. -/
theorem lineOrColumn_eq_error {key : Option String} (h : lineOrColumn record key = .error failure) :
    Complains record key failure := by
  unfold lineOrColumn at h
  split at h
  · next inner hword =>
    cases h
    exact word_eq_error hword
  · cases h
  · next n hword =>
    have hsome : (wholeAt record key).isSome = true := by
      rw [← (word_eq_ok_iff.mp hword).2]
      rfl
    obtain ⟨name, rfl, hgiven⟩ := isSome_given_of_wholeAt hsome
    split at h
    · cases h
      exact ⟨name, _, rfl, hgiven, rfl⟩
    · split at h
      · cases h
      · cases h
        exact ⟨name, _, rfl, hgiven, rfl⟩

/-- The first field that is present is one of the candidates, and the record gives it. -/
theorem firstPresent_eq_some {candidates : List (Option String)} {name : String}
    (h : firstPresent (candidates.map fun key => ((wholeAt record key).isSome, key)) = some name) :
    some name ∈ candidates ∧ (given record name).isSome = true := by
  obtain ⟨entry, hentry, hname⟩ := List.exists_of_findSome?_eq_some h
  obtain ⟨key, hkey, rfl⟩ := List.mem_map.mp hentry
  split at hname
  · next hpresent =>
    obtain ⟨other, hother, hgiven⟩ := isSome_given_of_wholeAt hpresent
    cases hname.symm.trans hother
    exact ⟨hname ▸ hkey, hgiven⟩
  · cases hname

/-- Reading the end of a position fails only over one of the fields of the end. -/
theorem stop_eq_error {start : UInt64}
    (h : (readingOf keys record).stop keys start = .error failure) :
    ∃ key ∈ [keys.endOffset, keys.endLine, keys.endColumn], Complains record key failure := by
  unfold Reading.stop at h
  split at h
  · next stop hstop =>
    have hsome : (wholeAt record keys.endOffset).isSome = true := Option.isSome_of_eq_some hstop
    obtain ⟨name, hname, hgiven⟩ := isSome_given_of_wholeAt hsome
    split at h
    · cases h
      refine ⟨keys.endOffset, List.mem_cons_self, name, .reversed stop start, hname, hgiven, ?_⟩
      rw [hname]
      rfl
    · cases h
  · split at h
    · next name hname =>
      cases h
      have hfirst : firstPresent ([keys.endLine, keys.endColumn].map
          fun key => ((wholeAt record key).isSome, key)) = some name := by
        simpa [readingOf] using hname
      obtain ⟨hmem, hgiven⟩ := firstPresent_eq_some hfirst
      exact ⟨some name, List.mem_cons_of_mem _ hmem, name, .withoutEnd, rfl, hgiven, rfl⟩
    · cases h

/-- Reading a position fails only over one of its fields. -/
theorem span_eq_error (h : (readingOf keys record).span keys = .error failure) :
    ∃ key ∈ keys.positional, Complains record key failure := by
  unfold Reading.span at h
  split at h
  · rcases bind_eq_error_iff.mp h with h | ⟨stop, -, h⟩
    · obtain ⟨key, hkey, hcomplains⟩ := stop_eq_error h
      have hsublist : [keys.endOffset, keys.endLine, keys.endColumn].Sublist keys.positional :=
        .cons _ (.cons_cons _ (.cons _ (.cons _ (List.Sublist.refl _))))
      exact ⟨key, hsublist.subset hkey, hcomplains⟩
    · cases h
  · split at h
    · next name hname =>
      cases h
      have hfirst : firstPresent
          ([keys.endOffset, keys.line, keys.column, keys.endLine, keys.endColumn].map
            fun key => ((wholeAt record key).isSome, key)) = some name := by
        simpa [readingOf] using hname
      obtain ⟨hmem, hgiven⟩ := firstPresent_eq_some hfirst
      exact ⟨some name, List.mem_cons_of_mem _ hmem, name, .withoutStart, rfl, hgiven, rfl⟩
    · cases h

/-- If no position can be read, the failure names a positional field that says something. -/
theorem position_eq_error (h : position keys record = .error failure) :
    ∃ key ∈ keys.positional, Complains record key failure := by
  unfold position at h
  rcases bind_eq_error_iff.mp h with h | ⟨r, hr, h⟩
  · unfold reading at h
    rcases bind_eq_error_iff.mp h with h | ⟨_, -, h⟩
    · exact ⟨keys.offset, by simp [Keys.positional], word_eq_error h⟩
    rcases bind_eq_error_iff.mp h with h | ⟨_, -, h⟩
    · exact ⟨keys.endOffset, by simp [Keys.positional], word_eq_error h⟩
    rcases bind_eq_error_iff.mp h with h | ⟨_, -, h⟩
    · exact ⟨keys.line, by simp [Keys.positional], lineOrColumn_eq_error h⟩
    rcases bind_eq_error_iff.mp h with h | ⟨_, -, h⟩
    · exact ⟨keys.column, by simp [Keys.positional], lineOrColumn_eq_error h⟩
    rcases bind_eq_error_iff.mp h with h | ⟨_, -, h⟩
    · exact ⟨keys.endLine, by simp [Keys.positional], lineOrColumn_eq_error h⟩
    rcases bind_eq_error_iff.mp h with h | ⟨_, -, h⟩
    · exact ⟨keys.endColumn, by simp [Keys.positional], lineOrColumn_eq_error h⟩
    cases h
  · rw [(reading_eq_ok_iff.mp hr).2.2] at h
    exact span_eq_error h

end Readers

/-! ## What a node is given, and from where -/

mutual

/-- The scalars among some fields and in the data records among them, depth first and with their
paths. -/
def scalarParts (isNode : Record → Bool) : List (String × Json) → List (Path × String × Scalar)
  | [] => []
  | (key, value) :: rest =>
    (scalarPartsOf isNode key value).map (below (.field key)) ++ scalarParts isNode rest

/-- The scalars that one field contributes, with their paths from the value of the field. -/
def scalarPartsOf (isNode : Record → Bool) (key : String) : Json → List (Path × String × Scalar)
  | .obj record => if isNode record then [] else scalarParts isNode record
  | .arr _ => []
  | .null => [(Path.root, key, .null)]
  | .bool flag => [(Path.root, key, .bool flag)]
  | .num number => [(Path.root, key, .num number)]
  | .str text => [(Path.root, key, .str text)]

end

@[simp] theorem scalarPartsOf_toJson (key : String) (scalar : Scalar) :
    scalarPartsOf isNode key scalar.toJson = [(Path.root, key, scalar)] := by
  cases scalar <;> simp [Scalar.toJson, scalarPartsOf]

/-- The parts of a record are those of its fields, in order. -/
theorem scalarParts_eq (fields : List (String × Json)) :
    scalarParts isNode fields = fields.flatMap fun field =>
      (scalarPartsOf isNode field.1 field.2).map (below (.field field.1)) := by
  induction fields with
  | nil => simp [scalarParts]
  | cons field rest ih => rw [scalarParts, ih, List.flatMap_cons]

/-- The parts of a record around one of its fields. -/
theorem scalarParts_append_cons (before after : List (String × Json)) (key : String)
    (value : Json) :
    scalarParts isNode (before ++ (key, value) :: after) =
      scalarParts isNode before ++
        ((scalarPartsOf isNode key value).map (below (.field key)) ++
          scalarParts isNode after) := by
  simp only [scalarParts_eq, List.flatMap_append, List.flatMap_cons]

mutual

/-- Without the paths, these are the properties of the node. -/
theorem map_snd_scalarParts (isNode : Record → Bool) : ∀ fields : List (String × Json),
    (scalarParts isNode fields).map Prod.snd = scalars isNode fields
  | [] => by simp [scalarParts, scalars]
  | (key, value) :: rest => by
    have hvalue := map_snd_scalarPartsOf isNode key value
    have hrest := map_snd_scalarParts isNode rest
    rw [scalarParts, scalars, List.map_append, List.map_map, ← hvalue, hrest]
    rfl

/-- The parts of a value are the scalars that it contributes. -/
theorem map_snd_scalarPartsOf (isNode : Record → Bool) (key : String) : ∀ value : Json,
    (scalarPartsOf isNode key value).map Prod.snd = scalarsOf isNode key value
  | .obj record => by
    rw [scalarPartsOf, scalarsOf]
    split
    · rfl
    · exact map_snd_scalarParts isNode record
  | .arr _ => by rw [scalarPartsOf, scalarsOf]; rfl
  | .null => by rw [scalarPartsOf, scalarsOf]; rfl
  | .bool _ => by rw [scalarPartsOf, scalarsOf]; rfl
  | .num _ => by rw [scalarPartsOf, scalarsOf]; rfl
  | .str _ => by rw [scalarPartsOf, scalarsOf]; rfl

end

theorem keys_scalars (fields : List (String × Json)) :
    Fields.keys (scalars isNode fields) =
      (scalarParts isNode fields).map fun part => part.2.1 := by
  rw [← map_snd_scalarParts, Fields.keys, List.map_map]
  rfl

/-- The listed paths lead to the listed scalars. -/
theorem follow_of_mem_scalarParts {record : Record} {fields : List (String × Json)} {path : Path}
    {key : String} {scalar : Scalar} (hnames : Json.DistinctNames (.obj record))
    (hfields : fields ⊆ record) (hmem : (path, key, scalar) ∈ scalarParts isNode fields) :
    Json.follow path (.obj record) = some scalar.toJson := by
  -- by the depth of the record: the data records inside are less deep
  induction hdepth : Json.depthFields record using Nat.strongRecOn
    generalizing record fields path with
  | ind depth ih =>
    subst hdepth
    obtain ⟨hdistinct, hvalues⟩ := distinctNames_obj.mp hnames
    rw [scalarParts_eq] at hmem
    obtain ⟨⟨name, value⟩, hfield, hmem⟩ := List.mem_flatMap.mp hmem
    obtain ⟨⟨rest, _⟩, hrest, heq⟩ := List.mem_map.mp hmem
    cases heq
    have hget : Fields.get? record name = some value :=
      hdistinct.get?_eq_some_iff.mpr (hfields hfield)
    rw [Json.follow, hget, Option.bind_some]
    rcases value.sorts with ⟨other, rfl⟩ | ⟨items, rfl⟩ | ⟨inner, rfl⟩
    · rw [scalarPartsOf_toJson] at hrest
      cases List.mem_singleton.mp hrest
      rfl
    · rw [scalarPartsOf] at hrest
      cases hrest
    · rw [scalarPartsOf] at hrest
      split at hrest
      · cases hrest
      · exact ih _ (depthFields_lt (hfields hfield) (Or.inl rfl)) (hvalues _ (hfields hfield))
          (List.Subset.refl inner) hrest rfl

/-- Among what the fields contribute there is this scalar under this path, and its key is one of
`taken` or that of a scalar before it. -/
def Repeats (isNode : Record → Bool) (taken : List String) (fields : List (String × Json))
    (path : Path) (key : String) (scalar : Scalar) : Prop :=
  ∃ before after, scalarParts isNode fields = before ++ (path, key, scalar) :: after ∧
    key ∈ taken ++ before.map fun part => part.2.1

/-- A scalar repeats a name that is taken already. -/
theorem repeats_toJson {taken : List String} {before after : List (String × Json)} {key : String}
    {scalar : Scalar} (h : key ∈ taken ++ Fields.keys (scalars isNode before)) :
    Repeats isNode taken (before ++ (key, scalar.toJson) :: after) [.field key] key scalar := by
  refine ⟨scalarParts isNode before, scalarParts isNode after, ?_, ?_⟩
  · rw [scalarParts_append_cons, scalarPartsOf_toJson]
    rfl
  · rw [← keys_scalars]
    exact h

/-- What is repeated in a data record is repeated. -/
theorem Repeats.of_data {taken : List String} {before after : List (String × Json)}
    {name key : String} {inner : Record} {path : Path} {scalar : Scalar}
    (hdata : isNode inner = false)
    (h : Repeats isNode (taken ++ Fields.keys (scalars isNode before)) inner path key scalar) :
    Repeats isNode taken (before ++ (name, .obj inner) :: after) (.field name :: path) key
      scalar := by
  obtain ⟨first, last, hparts, hkey⟩ := h
  refine ⟨scalarParts isNode before ++ first.map (below (.field name)),
    last.map (below (.field name)) ++ scalarParts isNode after, ?_, ?_⟩
  · rw [scalarParts_append_cons, scalarPartsOf, if_neg (by simp [hdata]), hparts]
    simp [below]
  · rw [List.map_append, List.map_map, ← keys_scalars, ← List.append_assoc]
    exact hkey

/-! ## Faults -/

/-- The record at this place is to become a node: it is the root, or a node record in a field of a
record that is to become a node. -/
inductive NodeAt (keys : Keys) (isNode : Record → Bool) (root : Json) : Path → Record → Prop
  | root {record : Record} : root = .obj record → NodeAt keys isNode root Path.root record
  | field {place : Path} {record inner : Record} {key : String} :
      NodeAt keys isNode root place record → (key, .obj inner) ∈ remaining keys record →
      isNode inner = true → NodeAt keys isNode root (place ++ [.field key]) inner
  | item {place : Path} {record inner : Record} {key : String} {items : List Json} {i : Nat} :
      NodeAt keys isNode root place record → (key, .arr items) ∈ remaining keys record →
      items[i]? = some (.obj inner) → isNode inner = true →
      NodeAt keys isNode root (place ++ [.field key] ++ [.index i]) inner

/-- The value at this place does not fit, for this reason. -/
inductive Misfit (keys : Keys) (isNode : Record → Bool) (root : Json) :
    Path → Json → ShapeFault → Prop
  | root : (∀ record, root ≠ .obj record) → Misfit keys isNode root Path.root root (.root root)
  | token {place : Path} {record : Record} {key : String} {value : Json} :
      NodeAt keys isNode root place record → tokenKey? keys record = some key →
      given record key = some value → ¬ value.IsScalar →
      Misfit keys isNode root (place ++ [.field key]) value (.token value)
  | sequenceInData {place : Path} {data : Record} {key : String} {items : List Json} :
      root.follow place = some (.obj data) → isNode data = false →
      Fields.get? data key = some (.arr items) →
      Misfit keys isNode root (place ++ [.field key]) (.arr items) .sequenceInData
  | nodeInData {place : Path} {data record : Record} {key : String} :
      root.follow place = some (.obj data) → isNode data = false →
      Fields.get? data key = some (.obj record) → isNode record = true →
      Misfit keys isNode root (place ++ [.field key]) (.obj record) .nodeInData
  | repeatedProperty {place path : Path} {record : Record} {key : String} {scalar : Scalar} :
      NodeAt keys isNode root place record →
      Repeats isNode [] (remaining keys record) path key scalar →
      Misfit keys isNode root (place ++ path) scalar.toJson (.repeatedProperty key)
  | item {place : Path} {items : List Json} {i : Nat} {value : Json} :
      root.follow place = some (.arr items) → items[i]? = some value →
      (∀ record, value ≠ .obj record) →
      Misfit keys isNode root (place ++ [.index i]) value (.item value)
  | dataItem {place : Path} {items : List Json} {i : Nat} {record : Record} :
      root.follow place = some (.arr items) → items[i]? = some (.obj record) →
      isNode record = false → Misfit keys isNode root (place ++ [.index i]) (.obj record) .dataItem

/-- The value at this place shows what went wrong. -/
inductive Exhibits (keys : Keys) (isNode : Record → Bool) (root : Json) :
    Path → Json → Cause → Prop
  | kind {place : Path} {record : Record} : NodeAt keys isNode root place record →
      (¬ ∃ name, Fields.get? record keys.kind = some (.str name) ∧ name ≠ "") →
      Exhibits keys isNode root place (.obj record) (.missingKind keys.kind)
  | position {place : Path} {record : Record} {key message : String} :
      NodeAt keys isNode root place record → some key ∈ keys.positional →
      (given record key).isSome = true →
      Exhibits keys isNode root place (.obj record) (.invalidPosition .convert key message)
  | shape {place : Path} {value : Json} {fault : ShapeFault} :
      Misfit keys isNode root place value fault →
      Exhibits keys isNode root place value (.invalidShape fault.message)

section Root

variable {root : Json}

/-- A remaining field is found under its name, as names are distinct. -/
theorem get?_of_mem_remaining {place : Path} {record : Record} {key : String} {value : Json}
    (hnames : root.DistinctNames) (hplace : root.follow place = some (.obj record))
    (h : (key, value) ∈ remaining keys record) : Fields.get? record key = some value := by
  obtain ⟨hdistinct, -⟩ := distinctNames_obj.mp (hnames.of_follow hplace)
  exact hdistinct.get?_eq_some_iff.mpr (mem_remaining.mp h).1

/-- A path to a node record leads to it. -/
theorem NodeAt.follow {place : Path} {record : Record} (hnames : root.DistinctNames)
    (h : NodeAt keys isNode root place record) : root.follow place = some (.obj record) := by
  induction h with
  | root hroot =>
    rw [hroot]
    rfl
  | field _ hfield _ ih =>
    exact Json.follow_field ih (get?_of_mem_remaining hnames ih hfield)
  | item _ hfield hi _ ih =>
    exact Json.follow_index (Json.follow_field ih (get?_of_mem_remaining hnames ih hfield)) hi

theorem get?_of_given {record : Record} {key : String} {value : Json}
    (h : given record key = some value) : Fields.get? record key = some value :=
  (Option.filter_eq_some_iff.mp h).1

theorem Misfit.follow {path : Path} {value : Json} {fault : ShapeFault}
    (hnames : root.DistinctNames) (h : Misfit keys isNode root path value fault) :
    root.follow path = some value := by
  cases h with
  | root _ => rfl
  | token hnode _ hgiven _ => exact Json.follow_field (hnode.follow hnames) (get?_of_given hgiven)
  | sequenceInData hplace _ hget => exact Json.follow_field hplace hget
  | nodeInData hplace _ hget _ => exact Json.follow_field hplace hget
  | repeatedProperty hnode hrepeats =>
    obtain ⟨before, after, hparts, -⟩ := hrepeats
    have hplace := hnode.follow hnames
    rw [Json.follow_append, hplace, Option.bind_some]
    have hmem := hparts ▸ List.mem_append_right before List.mem_cons_self
    exact follow_of_mem_scalarParts (hnames.of_follow hplace) (List.filter_subset_self _) hmem
  | item hplace hi _ => exact Json.follow_index hplace hi
  | dataItem hplace hi _ => exact Json.follow_index hplace hi

/-- A value that exhibits a cause is where the path says. -/
theorem Exhibits.follow {path : Path} {value : Json} {cause : Cause} (hnames : root.DistinctNames)
    (h : Exhibits keys isNode root path value cause) : root.follow path = some value := by
  cases h with
  | kind hnode _ => exact hnode.follow hnames
  | position hnode _ _ => exact hnode.follow hnames
  | shape hmisfit => exact hmisfit.follow hnames

/-!
## Failures

Every function of the conversion that fails at a place leaves a failure that a value below this
place exhibits. Below, each of them has a lemma that says so, given the same for those it calls.
-/

/-- The failure, which is reported from this place, is exhibited by a value. -/
def Located (keys : Keys) (isNode : Record → Bool) (root : Json) (place : Path)
    (failure : Failure) : Prop :=
  ∃ value, Exhibits keys isNode root (place ++ failure.path) value failure.cause

/-- A failure that is located below a step is located below the value, with the step in front. -/
theorem Located.under {place : Path} {segment : Segment} {failure : Failure}
    (h : Located keys isNode root (place ++ [segment]) failure) :
    Located keys isNode root place (failure.under segment) := by
  obtain ⟨value, hvalue⟩ := h
  rw [List.append_assoc] at hvalue
  exact ⟨value, hvalue⟩

theorem Exhibits.located {place : Path} {value : Json} {cause : Cause}
    (h : Exhibits keys isNode root place value cause) :
    Located keys isNode root place (.here cause) := by
  rw [← List.append_nil place] at h
  exact ⟨value, h⟩

/-- A failure at the place of a value that does not fit is located. -/
theorem Misfit.located {place : Path} {value : Json} {fault : ShapeFault}
    (h : Misfit keys isNode root place value fault) :
    Located keys isNode root place fault.failure :=
  (Exhibits.shape h).located

/-- A scalar is refused as a property only because the node has one of that name. -/
theorem addProperty_eq_error {properties : Fields Scalar} {key : String} {scalar : Scalar}
    {failure : Failure} (h : addProperty properties key scalar.toJson = .error failure) :
    key ∈ Fields.keys properties ∧ failure = (ShapeFault.repeatedProperty key).failure := by
  unfold addProperty at h
  rw [Scalar.ofJson?_toJson] at h
  dsimp only at h
  split at h
  · next hcontains =>
    cases h
    exact ⟨(Fields.get?_isSome_iff properties key).mp hcontains, rfl⟩
  · cases h

section Data

variable {place : Path} {data : Record} {properties : Fields Scalar} {failure : Failure}

/-- What the scalars of a data record repeat, given the properties that are there already, counts as
repeated in the tree. -/
def RepeatsCount (keys : Keys) (isNode : Record → Bool) (root : Json) (place : Path)
    (properties : Fields Scalar) (data : Record) : Prop :=
  ∀ path key scalar, Repeats isNode (Fields.keys properties) data path key scalar →
    Misfit keys isNode root (place ++ path) scalar.toJson (.repeatedProperty key)

/-- If repetitions in a record count, so do those in the data that a field of it holds. -/
theorem RepeatsCount.of_data {before after : List (String × Json)} {key : String} {inner : Record}
    (h : RepeatsCount keys isNode root place properties (before ++ (key, .obj inner) :: after))
    (hdata : isNode inner = false) :
    RepeatsCount keys isNode root (place ++ [.field key]) (properties ++ scalars isNode before)
      inner := by
  intro path name scalar hrepeats
  rw [List.append_assoc]
  refine h (.field key :: path) name scalar (Repeats.of_data hdata ?_)
  rw [← Fields.keys_append]
  exact hrepeats

/-- A failure over a field of a data record is located, if failures over nested data are. -/
theorem addDatum_located {nested : Record → Fields Scalar → Except Failure (Fields Scalar)}
    {before after : List (String × Json)} {key : String} {value : Json}
    (hnames : root.DistinctNames) (hplace : root.follow place = some (.obj data))
    (hdata : isNode data = false) (hfields : data = before ++ (key, value) :: after)
    (hrepeats : RepeatsCount keys isNode root place properties data)
    (hnested : ∀ inner failure, value = .obj inner → isNode inner = false →
      root.follow (place ++ [.field key]) = some (.obj inner) →
      nested inner (properties ++ scalars isNode before) = .error failure →
      Located keys isNode root (place ++ [.field key]) failure)
    (h : addDatum (plain keys isNode) nested (properties ++ scalars isNode before) (key, value) =
      .error failure) :
    Located keys isNode root place failure := by
  obtain ⟨hdistinct, -⟩ := distinctNames_obj.mp (hnames.of_follow hplace)
  have hget : Fields.get? data key = some value := by
    rw [hdistinct.get?_eq_some_iff, hfields]
    exact List.mem_append_right before List.mem_cons_self
  obtain ⟨reason, hreason, rfl⟩ := within_eq_error_iff.mp h
  refine Located.under ?_
  rcases value.sorts with ⟨scalar, rfl⟩ | ⟨items, rfl⟩ | ⟨inner, rfl⟩
  · have hadd : addProperty (properties ++ scalars isNode before) key scalar.toJson =
        .error reason := by
      cases scalar <;> exact hreason
    obtain ⟨hkey, rfl⟩ := addProperty_eq_error hadd
    refine (hrepeats [.field key] key scalar ?_).located
    rw [hfields]
    refine repeats_toJson ?_
    rw [← Fields.keys_append]
    exact hkey
  · cases hreason
    exact (Misfit.sequenceInData hplace hdata hget).located
  · have hif : (if isNode inner = true then .error ShapeFault.nodeInData.failure
        else nested inner (properties ++ scalars isNode before)) = .error reason := hreason
    split at hif
    · next hnode =>
      cases hif
      exact (Misfit.nodeInData hplace hdata hget hnode).located
    · next hnode =>
      have hinner : isNode inner = false := Bool.not_eq_true _ ▸ hnode
      exact hnested inner reason rfl hinner (Json.follow_field hplace hget) hif

/-- Every failure over a data record is located. -/
theorem flatten_located {fuel : Nat} (hfuel : Json.depthFields data < fuel)
    (hnames : root.DistinctNames) (hplace : root.follow place = some (.obj data))
    (hdata : isNode data = false) (hdistinct : Fields.Distinct properties)
    (hrepeats : RepeatsCount keys isNode root place properties data)
    (h : flatten (plain keys isNode) fuel data properties = .error failure) :
    Located keys isNode root place failure := by
  induction fuel generalizing data place properties failure with
  | zero => omega
  | succ fuel ih =>
    rw [flatten] at h
    obtain ⟨before, ⟨key, value⟩, after, state, hfields, hstate, hfails⟩ :=
      exists_split_of_foldlM_eq_error h
    -- the records inside are less deep, so there is enough fuel for them
    have hlt : ∀ {name inner}, (name, Json.obj inner) ∈ data → Json.depthFields inner < fuel := by
      intro name inner hmem
      have hdepth := depthFields_lt hmem (Or.inl rfl)
      omega
    have hbefore : ∀ name inner, (name, Json.obj inner) ∈ before →
        Flattens isNode (flatten (plain keys isNode) fuel) inner := by
      intro name inner hmem
      exact flattens (hlt (hfields ▸ List.mem_append_left _ hmem))
    obtain ⟨-, hdistinct, rfl⟩ := (foldlM_addDatum_eq_ok_iff hdistinct hbefore).mp hstate
    refine addDatum_located hnames hplace hdata hfields hrepeats ?_ hfails
    rintro inner reason rfl hinner hfollow hreason
    have hmem : (key, Json.obj inner) ∈ data :=
      hfields ▸ List.mem_append_right before List.mem_cons_self
    rw [hfields] at hrepeats
    exact ih (hlt hmem) hfollow hinner hdistinct (hrepeats.of_data hinner) hreason

end Data

section Nodes

variable {place : Path} {record : Record} {failure : Failure}
  {convert : Record → Except Failure Node}

/-- If items cannot be converted, one of them fails, and its index is in front of the path. -/
theorem items_eq_error {values : List Json} {i : Nat}
    (h : items (plain keys isNode) convert i values = .error failure) :
    ∃ j value reason, values[j]? = some value ∧
      item (plain keys isNode) convert value = .error reason ∧
      failure = reason.under (.index (i + j)) := by
  induction values generalizing i with
  | nil => cases h
  | cons value rest ih =>
    rw [items] at h
    rcases bind_eq_error_iff.mp h with h | ⟨node, -, h⟩
    · obtain ⟨reason, hreason, rfl⟩ := within_eq_error_iff.mp h
      exact ⟨0, value, reason, rfl, hreason, rfl⟩
    · rcases bind_eq_error_iff.mp h with h | ⟨nodes, -, h⟩
      · obtain ⟨j, found, reason, hj, hreason, rfl⟩ := ih h
        exact ⟨j + 1, found, reason, hj, hreason, by rw [Nat.add_right_comm, Nat.add_assoc]⟩
      · cases h

/-- A failure over an item is located, if failures over the records in it are. -/
theorem item_located {values : List Json} {i : Nat} {value : Json}
    (hplace : root.follow place = some (.arr values)) (hi : values[i]? = some value)
    (hconvert : ∀ inner reason, value = .obj inner → isNode inner = true →
      convert inner = .error reason → Located keys isNode root (place ++ [.index i]) reason)
    (h : item (plain keys isNode) convert value = .error failure) :
    Located keys isNode root (place ++ [.index i]) failure := by
  cases value with
  | obj inner =>
    have hif : (if isNode inner = true then convert inner
        else .error ShapeFault.dataItem.failure) = .error failure := h
    split at hif
    · next hisNode => exact hconvert inner failure rfl hisNode hif
    · next hisNode =>
      cases hif
      exact (Misfit.dataItem hplace hi (Bool.not_eq_true _ ▸ hisNode)).located
  | _ =>
    cases h
    exact Misfit.located (.item hplace hi fun _ heq => nomatch heq)

/-- A failure over a field of a node record is located, if failures over what it holds are. -/
theorem addField_located {flatten : Record → Fields Scalar → Except Failure (Fields Scalar)}
    {before after : List (String × Json)} {key : String} {value : Json} {node : Node}
    (hnames : root.DistinctNames) (hnode : NodeAt keys isNode root place record)
    (hfields : remaining keys record = before ++ (key, value) :: after)
    (hproperties : node.properties = scalars isNode before)
    (hconvert : ∀ spot inner reason, NodeAt keys isNode root spot inner → HoldsRecord value inner →
      convert inner = .error reason → Located keys isNode root spot reason)
    (hflatten : ∀ inner reason, value = .obj inner → isNode inner = false →
      root.follow (place ++ [.field key]) = some (.obj inner) →
      RepeatsCount keys isNode root (place ++ [.field key]) node.properties inner →
      flatten inner node.properties = .error reason →
      Located keys isNode root (place ++ [.field key]) reason)
    (h : addField (plain keys isNode) convert flatten node (key, value) = .error failure) :
    Located keys isNode root place failure := by
  have hmem : (key, value) ∈ remaining keys record :=
    hfields ▸ List.mem_append_right before List.mem_cons_self
  have hplace := hnode.follow hnames
  have hvalue := Json.follow_field hplace (get?_of_mem_remaining hnames hplace hmem)
  have hrepeats : RepeatsCount keys isNode root place [] (remaining keys record) :=
    fun path name scalar hrepeats => .repeatedProperty hnode hrepeats
  rw [hfields] at hrepeats
  obtain ⟨reason, hreason, rfl⟩ := within_eq_error_iff.mp h
  refine Located.under ?_
  rcases value.sorts with ⟨scalar, rfl⟩ | ⟨values, rfl⟩ | ⟨inner, rfl⟩
  · have hadd : addNodeProperty node key scalar.toJson = .error reason := by
      cases scalar <;> exact hreason
    rcases bind_eq_error_iff.mp hadd with hadd | ⟨_, -, hadd⟩
    · obtain ⟨hkey, rfl⟩ := addProperty_eq_error hadd
      rw [hproperties] at hkey
      exact (hrepeats [.field key] key scalar (repeats_toJson hkey)).located
    · cases hadd
  · rcases bind_eq_error_iff.mp hreason with hitems | ⟨_, -, hitems⟩
    · obtain ⟨j, item, cause, hj, hcause, rfl⟩ := items_eq_error hitems
      rw [Nat.zero_add]
      refine Located.under (item_located hvalue hj ?_ hcause)
      rintro inner cause rfl hisNode hinner
      have hholds : HoldsRecord (.arr values) inner :=
        Or.inr ⟨values, rfl, List.mem_of_getElem? hj⟩
      exact hconvert _ inner cause (.item hnode hmem hj hisNode) hholds hinner
    · cases hitems
  · have hif : (if isNode inner = true then do
          let child ← convert inner
          pure (addSlot node key (.single child))
        else do
          let properties ← flatten inner node.properties
          pure { node with properties := properties }) = .error reason := hreason
    split at hif
    · next hisNode =>
      rcases bind_eq_error_iff.mp hif with hchild | ⟨_, -, hchild⟩
      · exact hconvert _ inner reason (.field hnode hmem hisNode) (Or.inl rfl) hchild
      · cases hchild
    · next hisNode =>
      have hdata : isNode inner = false := Bool.not_eq_true _ ▸ hisNode
      rcases bind_eq_error_iff.mp hif with hproperty | ⟨_, -, hproperty⟩
      · refine hflatten inner reason rfl hdata hvalue ?_ hproperty
        rw [hproperties]
        exact hrepeats.of_data hdata
      · cases hproperty

/-- Every failure over a node record is located. -/
theorem node_located {fuel : Nat} (hfuel : Json.depthFields record < fuel)
    (hnames : root.DistinctNames) (hnode : NodeAt keys isNode root place record)
    (h : node (plain keys isNode) fuel record = .error failure) :
    Located keys isNode root place failure := by
  induction fuel generalizing place record failure with
  | zero => omega
  | succ fuel ih =>
    have hkeys : (plain keys isNode).keys = keys := rfl
    rw [node, hkeys] at h
    rcases bind_eq_error_iff.mp h with h | ⟨name, -, h⟩
    · obtain ⟨hkind, rfl⟩ := kind_eq_error h
      exact (Exhibits.kind hnode hkind).located
    rcases bind_eq_error_iff.mp h with h | ⟨found, hfound, h⟩
    · obtain ⟨key, value, hkey, hgiven, hscalar, rfl⟩ := token_eq_error h
      exact (Misfit.token hnode hkey hgiven hscalar).located.under
    rcases bind_eq_error_iff.mp h with h | ⟨span, -, h⟩
    · obtain ⟨_, hpositional, name, fault, rfl, hgiven, rfl⟩ := position_eq_error h
      exact (Exhibits.position hnode hpositional hgiven).located
    rw [(token_eq_ok_iff.mp hfound).2.1, filter_isLifted] at h
    obtain ⟨before, ⟨key, value⟩, after, state, hfields, hstate, hfails⟩ :=
      exists_split_of_foldlM_eq_error h
    -- the records inside are less deep, so there is enough fuel for them
    have hlt : ∀ {field inner}, field ∈ remaining keys record → HoldsRecord field.2 inner →
        Json.depthFields inner < fuel := by
      intro field inner hfield hinner
      have hdepth := depthFields_lt (mem_remaining.mp hfield).1 hinner
      omega
    have hmem : (key, value) ∈ remaining keys record :=
      hfields ▸ List.mem_append_right before List.mem_cons_self
    have hbefore : ∀ name inner, (name, Json.obj inner) ∈ before →
        Flattens isNode (flatten (plain keys isNode) fuel) inner := by
      intro name inner hinner
      exact flattens (hlt (hfields ▸ List.mem_append_left _ hinner) (Or.inl rfl))
    have hempty : Fields.Distinct ([] : Fields Scalar) := List.nodup_nil
    obtain ⟨slots, -, hdistinct, rfl⟩ := (foldlM_addField_eq_ok_iff hempty hbefore).mp hstate
    have hproperties := List.nil_append (scalars isNode before)
    refine addField_located hnames hnode hfields hproperties ?_ ?_ hfails
    · intro spot inner reason hinner hholds hreason
      exact ih (hlt hmem hholds) hinner hreason
    · intro inner reason hvalue hdata hfollow hrepeats hreason
      exact flatten_located (hlt hmem (Or.inl hvalue)) hnames hfollow hdata hdistinct hrepeats
        hreason

end Nodes

end Root

theorem head?_toList_append {text rest : String} {c : Char} (h : text.toList.head? = some c) :
    (text ++ rest).toList.head? = some c := by
  rw [String.toList_append, List.head?_append, h]
  rfl

/-- What does not fit is never that a property is no scalar, and so the wording does not start with
the letter that this fault starts with. -/
theorem Misfit.exists_head?_message {root : Json} {path : Path} {value : Json} {fault : ShapeFault}
    (h : Misfit keys isNode root path value fault) :
    ∃ c, fault.message.toList.head? = some c ∧ c ≠ 'e' := by
  cases h with
  | root _ => exact ⟨'r', head?_toList_append (by decide), by decide⟩
  | token _ _ _ _ => exact ⟨'t', head?_toList_append (by decide), by decide⟩
  | sequenceInData _ _ _ => exact ⟨'s', by decide, by decide⟩
  | nodeInData _ _ _ _ => exact ⟨'n', by decide, by decide⟩
  | repeatedProperty _ _ =>
    exact ⟨'p', head?_toList_append (head?_toList_append (by decide)), by decide⟩
  | item _ _ _ => exact ⟨'s', head?_toList_append (by decide), by decide⟩
  | dataItem _ _ _ => exact ⟨'s', by decide, by decide⟩

/-- No value exhibits the cause that a scalar was expected. -/
theorem Exhibits.message_ne {root : Json} {path : Path} {value : Json} {message : String}
    (h : Exhibits keys isNode root path value (.invalidShape message)) (found : String) :
    message ≠ "expected a scalar, found " ++ found := by
  intro hmessage
  cases h with
  | shape hmisfit =>
    obtain ⟨c, hc, hne⟩ := hmisfit.exists_head?_message
    rw [hmessage, head?_toList_append (c := 'e') (by decide)] at hc
    exact hne (Option.some.inj hc).symm

/-- The path of a failure leads to a value that exhibits the fault. Only scalars are ever taken for
properties, so no failure says that a scalar was expected. -/
theorem convert_failure_exhibited (keys : Keys) (isNode : Record → Bool) (value : Json)
    (hnames : value.DistinctNames) (failure : Failure)
    (h : (plain keys isNode).convert value = .error failure) :
    (∃ found, value.follow failure.path = some found ∧
      Exhibits keys isNode value failure.path found failure.cause) ∧
    ∀ found, failure.cause ≠ .invalidShape ("expected a scalar, found " ++ found) := by
  have hlocated : Located keys isNode value Path.root failure := by
    cases value with
    | obj record =>
      have hnode : node (plain keys isNode) (Json.depthFields record + 1) record = .error failure :=
        h
      exact node_located (Nat.lt_succ_self _) hnames (.root rfl) hnode
    | _ =>
      cases h
      exact Misfit.located (.root fun _ heq => nomatch heq)
  obtain ⟨found, hfound⟩ := hlocated
  refine ⟨⟨found, hfound.follow hnames, hfound⟩, fun text hcause => ?_⟩
  rw [hcause] at hfound
  exact hfound.message_ne text rfl

/-- The second scalar named `inline` is found in the inner of two data records. -/
theorem convert_failure_exhibited_inline :
    let value : Json :=
      .obj [("kind", .str "block"), ("body", .arr [.obj [("kind", .str "call"),
        ("flags", .obj [("inline", .bool true), ("hints", .obj [("inline", .bool false)])])]])]
    let path : Path :=
      [.field "body", .index 0, .field "flags", .field "hints", .field "inline"]
    let cause : Cause := .invalidShape "property 'inline' is defined twice"
    (plain {} (holdsString "kind")).convert value = .error ⟨path, cause⟩ ∧
      value.follow path = some (.bool false) ∧
      Exhibits {} (holdsString "kind") value path (.bool false) cause := by
  intro value path cause
  have hstr : ∀ text, Json.DistinctNames (.str text) := fun text => .scalar ⟨.str text, rfl⟩
  have hbool : ∀ flag, Json.DistinctNames (.bool flag) := fun flag => .scalar ⟨.bool flag, rfl⟩
  have hnames : value.DistinctNames := by
    simp [value, distinctNames_obj, distinctNames_arr, Fields.Distinct, hstr, hbool]
  have hconvert : (plain {} (holdsString "kind")).convert value = .error ⟨path, cause⟩ := rfl
  obtain ⟨⟨found, hfollow, hexhibits⟩, -⟩ :=
    convert_failure_exhibited {} (holdsString "kind") value hnames _ hconvert
  have hinline : value.follow path = some (.bool false) := rfl
  cases Option.some.inj (hinline.symm.trans hfollow)
  exact ⟨hconvert, hinline, hexhibits⟩

end Schema

end CanonicalTree
