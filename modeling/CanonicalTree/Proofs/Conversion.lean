import CanonicalTree.Proofs.Descendants
import CanonicalTree.Proofs.Outcomes
import CanonicalTree.Schema.Convert

/-!
# Converted trees, node by node

Every node of a converted tree is itself the conversion of a record: its kind, its token and its
position are the ones that were read from that record, and its children are conversions of other
records (`node_eq_ok`). What conversion checks of one record therefore holds of every node:
no kind is empty, lines and columns count from one, and no position ends before it starts.
-/

namespace CanonicalTree

/-- Lines and columns count from one as far as they are given, and the end does not lie before the
start. -/
structure Span.Ordered (span : Span) : Prop where
  line_ne_zero : ∀ point ∈ span.points, point.line ≠ some 0
  column_ne_zero : ∀ point ∈ span.points, point.column ≠ some 0
  start_le_stop : ∀ stop, span.stop = some stop → span.start.offset ≤ stop.offset

namespace Schema

variable {schema : Schema} {convert : Record → Except Failure Node}

/-! ## One record -/

/-- A kind that has been read is not empty. -/
theorem kind_ne_empty {keys : Keys} {record : Record} {name : String}
    (h : kind keys record = .ok name) : name ≠ "" := by
  unfold kind at h
  split at h
  · split at h
    · cases h
    · next hnonempty =>
      cases h
      rintro rfl
      exact hnonempty rfl
  · cases h

/-- Lines and columns that have been read count from one. -/
theorem lineOrColumn_ne_zero {record : Record} {key : Option String} {number : Option UInt32}
    (h : lineOrColumn record key = .ok number) : number ≠ some 0 := by
  unfold lineOrColumn at h
  split at h
  · cases h
  · cases h
    simp
  · next n _ =>
    split at h
    · cases h
    · next hzero =>
      split at h
      · next hsize =>
        cases h
        intro heq
        apply hzero
        have hn : n.toNat % UInt32.size = 0 := by
          have := congrArg UInt32.toNat (Option.some.inj heq)
          simpa using this
        rw [Nat.mod_eq_of_lt hsize] at hn
        exact UInt64.toNat_inj.mp hn
      · cases h

/-- A position that was read from a record is ordered. -/
theorem position_ordered {keys : Keys} {record : Record} {span : Span}
    (h : position keys record = .ok (some span)) : span.Ordered := by
  unfold position at h
  obtain ⟨r, hreading, hspan⟩ := bind_eq_ok_iff.mp h
  unfold reading at hreading
  obtain ⟨offset, -, hreading⟩ := bind_eq_ok_iff.mp hreading
  obtain ⟨endOffset, -, hreading⟩ := bind_eq_ok_iff.mp hreading
  obtain ⟨line, hline, hreading⟩ := bind_eq_ok_iff.mp hreading
  obtain ⟨column, hcolumn, hreading⟩ := bind_eq_ok_iff.mp hreading
  obtain ⟨endLine, hendLine, hreading⟩ := bind_eq_ok_iff.mp hreading
  obtain ⟨endColumn, hendColumn, hreading⟩ := bind_eq_ok_iff.mp hreading
  cases pure_eq_ok_iff.mp hreading
  have hline := lineOrColumn_ne_zero hline
  have hcolumn := lineOrColumn_ne_zero hcolumn
  have hendLine := lineOrColumn_ne_zero hendLine
  have hendColumn := lineOrColumn_ne_zero hendColumn
  unfold Reading.span at hspan
  split at hspan
  · next start hstart =>
    obtain ⟨stop, hstop, hspan⟩ := bind_eq_ok_iff.mp hspan
    cases pure_eq_ok_iff.mp hspan
    unfold Reading.stop at hstop
    split at hstop
    · next stopOffset hstopOffset =>
      split at hstop
      · cases hstop
      · next hle =>
        cases hstop
        refine ⟨?_, ?_, ?_⟩
        · simp [Span.points, hline, hendLine]
        · simp [Span.points, hcolumn, hendColumn]
        · intro stop hstop
          cases hstop
          exact UInt64.not_lt.mp hle
    · split at hstop
      · cases hstop
      · cases hstop
        refine ⟨?_, ?_, ?_⟩
        · simp [Span.points, hline]
        · simp [Span.points, hcolumn]
        · simp
  · split at hspan <;> cases hspan

/-! ## Fields -/

/-- A node of a sequence is the conversion of a record. -/
theorem items_eq_ok {values : List Json} {i : Nat} {nodes : List Node}
    (h : items schema convert i values = .ok nodes) :
    ∀ node ∈ nodes, ∃ record, convert record = .ok node := by
  induction values generalizing i nodes with
  | nil =>
    cases h
    simp
  | cons value rest ih =>
    rw [items] at h
    obtain ⟨first, hfirst, h⟩ := bind_eq_ok_iff.mp h
    obtain ⟨others, hothers, hnodes⟩ := bind_eq_ok_iff.mp h
    cases pure_eq_ok_iff.mp hnodes
    refine List.forall_mem_cons.mpr ⟨?_, ih hothers⟩
    have hitem := within_eq_ok_iff.mp hfirst
    unfold item at hitem
    split at hitem
    · obtain ⟨repaired, -, hitem⟩ := bind_eq_ok_iff.mp hitem
      split at hitem
      · exact ⟨repaired, hitem⟩
      · cases hitem
    · cases hitem

/-- A new slot adds its nodes behind the children. -/
theorem children_addSlot (node : Node) (name : String) (slot : Slot) :
    (addSlot node name slot).children = node.children ++ slot.nodes := by
  simp [addSlot, Node.children]

/-- What a field can do to a node: kind, token and position stay, and every child it adds is the
conversion of a record. -/
structure Extends (convert : Record → Except Failure Node) (node next : Node) : Prop where
  kind_eq : next.kind = node.kind
  token_eq : next.token = node.token
  position_eq : next.position = node.position
  children_from : ∀ child ∈ next.children,
    child ∈ node.children ∨ ∃ record, convert record = .ok child

theorem extends_addNodeProperty {node next : Node} {key : String} {value : Json}
    (h : addNodeProperty node key value = .ok next) : Extends convert node next := by
  unfold addNodeProperty at h
  obtain ⟨properties, -, hnext⟩ := bind_eq_ok_iff.mp h
  cases pure_eq_ok_iff.mp hnext
  exact ⟨rfl, rfl, rfl, fun child hchild => Or.inl hchild⟩

theorem extends_addSlot {node : Node} {name : String} {slot : Slot}
    (h : ∀ child ∈ slot.nodes, ∃ record, convert record = .ok child) :
    Extends convert node (addSlot node name slot) := by
  refine ⟨rfl, rfl, rfl, fun child hchild => ?_⟩
  rw [children_addSlot] at hchild
  rcases List.mem_append.mp hchild with hchild | hchild
  · exact Or.inl hchild
  · exact Or.inr (h child hchild)

/-- A field adds only children that were converted. -/
theorem extends_addField {flatten : Record → Fields Scalar → Except Failure (Fields Scalar)}
    {node next : Node} {field : String × Json}
    (h : addField schema convert flatten node field = .ok next) : Extends convert node next := by
  unfold addField at h
  replace h := within_eq_ok_iff.mp h
  split at h
  · obtain ⟨repaired, -, h⟩ := bind_eq_ok_iff.mp h
    split at h
    · obtain ⟨child, hchild, hnext⟩ := bind_eq_ok_iff.mp h
      cases pure_eq_ok_iff.mp hnext
      refine extends_addSlot fun other hother => ?_
      rw [List.mem_singleton.mp hother]
      exact ⟨repaired, hchild⟩
    · obtain ⟨properties, -, hnext⟩ := bind_eq_ok_iff.mp h
      cases pure_eq_ok_iff.mp hnext
      exact ⟨rfl, rfl, rfl, fun child hchild => Or.inl hchild⟩
  · obtain ⟨nodes, hnodes, hnext⟩ := bind_eq_ok_iff.mp h
    cases pure_eq_ok_iff.mp hnext
    exact extends_addSlot (items_eq_ok hnodes)
  · exact extends_addNodeProperty h

/-! ## Nodes -/

/-- A converted node reads kind, token and position from its record, and its children are
conversions of records with less fuel. -/
theorem node_eq_ok {fuel : Nat} {record : Record} {result : Node}
    (h : node schema (fuel + 1) record = .ok result) :
    kind schema.keys record = .ok result.kind ∧
      (token schema.keys record).map (Option.map Prod.snd) = .ok result.token ∧
      position schema.keys record = .ok result.position ∧
      ∀ child ∈ result.children, ∃ record, node schema fuel record = .ok child := by
  rw [node] at h
  obtain ⟨name, hkind, h⟩ := bind_eq_ok_iff.mp h
  obtain ⟨token, htoken, h⟩ := bind_eq_ok_iff.mp h
  obtain ⟨position, hposition, h⟩ := bind_eq_ok_iff.mp h
  -- the fields are added one by one, and none of them touches what was read first
  have hinvariant := foldlM_ok_invariant
    (fun node : Node => node.kind = name ∧ node.token = token.map Prod.snd ∧
      node.position = position ∧
      ∀ child ∈ node.children, ∃ record, Schema.node schema fuel record = .ok child)
    (fun state field next hstate hnext => by
      obtain ⟨hkind, htoken, hposition, hchildren⟩ := hstate
      have hextends := extends_addField hnext
      refine ⟨hextends.kind_eq.trans hkind, hextends.token_eq.trans htoken,
        hextends.position_eq.trans hposition, fun child hchild => ?_⟩
      rcases hextends.children_from child hchild with hold | hnew
      · exact hchildren child hold
      · exact hnew)
    ⟨rfl, rfl, rfl, by simp [Node.children]⟩ h
  obtain ⟨rfl, htokenEq, rfl, hchildren⟩ := hinvariant
  refine ⟨hkind, ?_, hposition, hchildren⟩
  rw [htoken, htokenEq]
  rfl

/-- Every node of a converted tree is the conversion of a record. -/
theorem exists_record_of_mem_descendants {fuel : Nat} {record : Record} {result part : Node}
    (h : node schema fuel record = .ok result) (hpart : part ∈ result.descendants) :
    ∃ fuel record, node schema (fuel + 1) record = .ok part := by
  induction fuel generalizing record result with
  | zero => cases h
  | succ fuel ih =>
    rcases Node.mem_descendants.mp hpart with rfl | ⟨child, hchild, hpart⟩
    · exact ⟨fuel, record, h⟩
    · obtain ⟨-, -, -, hchildren⟩ := node_eq_ok h
      obtain ⟨childRecord, hchildRecord⟩ := hchildren child hchild
      exact ih hchildRecord hpart

/-- No node of a converted tree has an empty kind, and all its positions are ordered. -/
theorem convert_eq_ok {raw : Json} {tree : Node} (h : schema.convert raw = .ok tree) :
    ∀ part ∈ tree.descendants,
      part.kind ≠ "" ∧ ∀ span, part.position = some span → span.Ordered := by
  intro part hpart
  unfold Schema.convert convertWithin at h
  split at h
  · obtain ⟨repaired, -, hnode⟩ := bind_eq_ok_iff.mp h
    obtain ⟨fuel, record, hrecord⟩ := exists_record_of_mem_descendants hnode hpart
    obtain ⟨hkind, -, hposition, -⟩ := node_eq_ok hrecord
    refine ⟨kind_ne_empty hkind, fun span hspan => ?_⟩
    rw [hspan] at hposition
    exact position_ordered hposition
  · cases h

end Schema

end CanonicalTree
