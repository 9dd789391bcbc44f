import CanonicalTree.Proofs.Descendants
import CanonicalTree.Tree.Printer

/-!
# What a printed tree says

A node is printed as a record that leaves out what is absent or empty, and neither scalars nor slots
are marked as what they are. Nothing is lost by that: the members of the record have names of their
own, so that the record says which of them are there (`Fields.paired_present`); a record is never
written for an empty list of fields; and a single child is printed as a record, whereas children in
sequence are printed as a sequence. So two nodes are printed alike only if they are alike at every
depth, orders included (`Node.toJson_faithful`).

What it means for numbers to be alike is left open as long as whole numbers are told apart.
-/

namespace CanonicalTree

/-! ## Records with members that may be missing -/

namespace Fields

variable {α β : Type}

/-- The same names in the same order, with related values. -/
def Paired (R : α → β → Prop) : Fields α → Fields β → Prop :=
  List.Forall₂ fun entry other => entry.1 = other.1 ∧ R entry.2 other.2

/-- The members that are there. -/
def present (members : Fields (Option α)) : Fields α :=
  members.filterMap fun entry => entry.2.map (Prod.mk entry.1)

@[simp] theorem present_nil : present ([] : Fields (Option α)) = [] := rfl

@[simp] theorem present_cons_none (name : String) (rest : Fields (Option α)) :
    present ((name, none) :: rest) = present rest := rfl

@[simp] theorem present_cons_some (name : String) (value : α) (rest : Fields (Option α)) :
    present ((name, some value) :: rest) = (name, value) :: present rest := rfl

/-- Members that are present have names of members. -/
theorem keys_present_subset (members : Fields (Option α)) :
    keys (present members) ⊆ keys members := by
  induction members with
  | nil => simp
  | cons entry rest ih =>
    obtain ⟨name, value⟩ := entry
    cases value with
    | none =>
      rw [present_cons_none, keys_cons]
      exact List.subset_cons_of_subset name ih
    | some value =>
      rw [present_cons_some, keys_cons, keys_cons]
      exact List.cons_subset_cons name ih

/-- Paired fields have the same names, in the same order. -/
theorem Paired.keys_eq {R : α → β → Prop} {fields : Fields α} {others : Fields β}
    (h : Paired R fields others) : keys fields = keys others := by
  induction h with
  | nil => rfl
  | cons hentry _ ih => rw [keys_cons, keys_cons, hentry.1, ih]

/-- Records with the same possible members are alike only if the same members are there. -/
theorem paired_present {R : α → β → Prop} {members : Fields (Option α)}
    {others : Fields (Option β)} (hkeys : keys members = keys others)
    (hdistinct : Distinct members) :
    Paired R (present members) (present others) ↔ Paired (Option.Rel R) members others := by
  induction members generalizing others with
  | nil =>
    cases others with
    | nil => exact ⟨fun _ => .nil, fun _ => .nil⟩
    | cons other others => cases hkeys
  | cons entry rest ih =>
    cases others with
    | nil => cases hkeys
    | cons other others =>
      obtain ⟨name, value⟩ := entry
      obtain ⟨name', value'⟩ := other
      obtain ⟨rfl, hrest⟩ := List.cons.inj hkeys
      obtain ⟨hfresh, hdistinct⟩ := List.nodup_cons.mp hdistinct
      have hfirst : Paired (Option.Rel R) ((name, value) :: rest) ((name, value') :: others) ↔
          Option.Rel R value value' ∧ Paired (Option.Rel R) rest others := by
        simp [Paired]
      rw [hfirst, ← ih hrest hdistinct]
      -- a member on one side only would have to stand against a member of another name
      have habsent : name ∉ keys (present rest) := fun h => hfresh (keys_present_subset rest h)
      have habsent' : name ∉ keys (present others) := by
        intro h
        have hmem : name ∈ keys others := keys_present_subset others h
        rw [show keys others = keys rest from hrest.symm] at hmem
        exact hfresh hmem
      cases value with
      | none =>
        cases value' with
        | none => simp
        | some value' =>
          rw [present_cons_none, present_cons_some]
          refine ⟨fun h => absurd ?_ habsent, fun h => nomatch h.1⟩
          rw [h.keys_eq, keys_cons]
          exact List.mem_cons_self
      | some value =>
        cases value' with
        | none =>
          rw [present_cons_none, present_cons_some]
          refine ⟨fun h => absurd ?_ habsent', fun h => nomatch h.1⟩
          rw [← h.keys_eq, keys_cons]
          exact List.mem_cons_self
        | some value' => simp [Paired]

end Fields

/-! ## Values that agree -/

variable {R : Number → Number → Prop}

mutual

/-- The values have the same form with the same fields in the same order, and their numbers are
related. -/
def Json.Agree (R : Number → Number → Prop) : Json → Json → Prop
  | .null, .null => True
  | .bool flag, .bool other => flag = other
  | .num number, .num other => R number other
  | .str text, .str other => text = other
  | .arr items, .arr others => Json.AgreeItems R items others
  | .obj fields, .obj others => Json.AgreeFields R fields others
  | _, _ => False

/-- The values agree one by one. -/
def Json.AgreeItems (R : Number → Number → Prop) : List Json → List Json → Prop
  | [], [] => True
  | item :: rest, other :: others => Json.Agree R item other ∧ Json.AgreeItems R rest others
  | _, _ => False

/-- The fields have the same names one by one, and hold values that agree. -/
def Json.AgreeFields (R : Number → Number → Prop) :
    List (String × Json) → List (String × Json) → Prop
  | [], [] => True
  | (name, value) :: rest, (name', value') :: others =>
    (name = name' ∧ Json.Agree R value value') ∧ Json.AgreeFields R rest others
  | _, _ => False

end

theorem Json.agreeItems_iff {items others : List Json} :
    Json.AgreeItems R items others ↔ List.Forall₂ (Json.Agree R) items others := by
  induction items generalizing others with
  | nil => cases others <;> simp [AgreeItems]
  | cons item rest ih => cases others <;> simp [AgreeItems, ih]

/-- Records agree if their fields have the same names and agreeing values, one for one. -/
theorem Json.agreeFields_iff {fields others : List (String × Json)} :
    Json.AgreeFields R fields others ↔ Fields.Paired (Json.Agree R) fields others := by
  induction fields generalizing others with
  | nil => cases others <;> simp [AgreeFields, Fields.Paired]
  | cons entry rest ih => cases others <;> simp_all [AgreeFields, Fields.Paired]

/-- The scalars have the same form and value, up to related numbers. -/
def Scalar.Agree (R : Number → Number → Prop) : Scalar → Scalar → Prop
  | .null, .null => True
  | .bool flag, .bool other => flag = other
  | .num number, .num other => R number other
  | .str text, .str other => text = other
  | _, _ => False

mutual

/-- The nodes are equal in kind, token and position, in the keys of their properties and the names
and forms of their slots, orders included; their scalars and their children agree. -/
def Node.Agree (R : Number → Number → Prop) : Node → Node → Prop
  | ⟨kind, token, position, properties, slots⟩, other =>
    kind = other.kind ∧ token = other.token ∧ position = other.position ∧
      Fields.Paired (Scalar.Agree R) properties other.properties ∧
      Node.AgreeSlots R slots other.slots

/-- The slots have the same names one by one, and agree. -/
def Node.AgreeSlots (R : Number → Number → Prop) :
    List (String × Slot) → List (String × Slot) → Prop
  | [], [] => True
  | (name, slot) :: rest, (name', slot') :: others =>
    (name = name' ∧ Slot.Agree R slot slot') ∧ Node.AgreeSlots R rest others
  | _, _ => False

/-- The slots have the same form and hold nodes that agree. -/
def Slot.Agree (R : Number → Number → Prop) : Slot → Slot → Prop
  | .single node, .single other => Node.Agree R node other
  | .sequence nodes, .sequence others => Node.AgreeNodes R nodes others
  | _, _ => False

/-- The nodes agree one by one. -/
def Node.AgreeNodes (R : Number → Number → Prop) : List Node → List Node → Prop
  | [], [] => True
  | node :: rest, other :: others => Node.Agree R node other ∧ Node.AgreeNodes R rest others
  | _, _ => False

end

/-! ## Printing -/

/-- The fields as a record, unless there are none. -/
def Json.nonEmpty (fields : Record) : Option Json :=
  if fields = [] then none else some (.obj fields)

/-- Records that are left out if they are empty agree if the records do. -/
theorem Json.rel_nonEmpty {fields others : Record} :
    Option.Rel (Json.Agree R) (Json.nonEmpty fields) (Json.nonEmpty others) ↔
      Fields.Paired (Json.Agree R) fields others := by
  cases fields with
  | nil => cases others <;> simp [nonEmpty, Fields.Paired]
  | cons entry rest =>
    cases others with
    | nil => simp [nonEmpty, Fields.Paired]
    | cons other others => simp [nonEmpty, Agree, agreeFields_iff]

theorem Point.toJson_eq (point : Point) :
    point.toJson = .obj (Fields.present
      [("offset", some (.num (.whole point.offset))),
        ("line", point.line.map fun line => .num (.whole line.toUInt64)),
        ("column", point.column.map fun column => .num (.whole column.toUInt64))]) := by
  obtain ⟨offset, line, column⟩ := point
  cases line <;> cases column <;> rfl

theorem Span.toJson_eq (span : Span) :
    span.toJson = .obj (Fields.present
      [("start", some span.start.toJson), ("end", span.stop.map Point.toJson)]) := by
  obtain ⟨start, stop⟩ := span
  cases stop <;> rfl

/-- A node is printed as its kind, with a token, a position, properties and children if it has any.
-/
theorem Node.toJson_eq (node : Node) :
    node.toJson = .obj (Fields.present
      [("kind", some (.str node.kind)), ("token", node.token.map .str),
        ("position", node.position.map Span.toJson),
        ("properties", Json.nonEmpty (node.properties.map fun entry => (entry.1, entry.2.toJson))),
        ("children", Json.nonEmpty (Node.slotsToJson node.slots))]) := by
  obtain ⟨kind, token, position, properties, slots⟩ := node
  cases token <;> cases position <;> cases properties <;> cases slots <;>
    simp [Node.toJson, Node.slotsToJson, Json.nonEmpty]

/-- The relation tells whole numbers apart. -/
def Number.Separates (R : Number → Number → Prop) : Prop :=
  ∀ m n : UInt64, R (.whole m) (.whole n) ↔ m = n

/-- A member that may be missing is printed faithfully if it is when it is there. -/
theorem rel_map_iff {α β : Type} {S : β → β → Prop} {print : α → β}
    (hprint : ∀ a b, S (print a) (print b) ↔ a = b) {value other : Option α} :
    Option.Rel S (value.map print) (other.map print) ↔ value = other := by
  cases value <;> cases other <;> simp [hprint]

/-- Records of the same members agree if the same members are present and agree. -/
theorem Json.agree_present {members others : Fields (Option Json)}
    (hkeys : Fields.keys members = Fields.keys others) (hdistinct : Fields.Distinct members) :
    Json.Agree R (.obj (Fields.present members)) (.obj (Fields.present others)) ↔
      Fields.Paired (Option.Rel (Json.Agree R)) members others := by
  rw [Json.Agree, Json.agreeFields_iff, Fields.paired_present hkeys hdistinct]

section

variable (hR : Number.Separates R)
include hR

theorem Point.agree_toJson (point other : Point) :
    Json.Agree R point.toJson other.toJson ↔ point = other := by
  have hword : ∀ m n : UInt32, Json.Agree R (.num (.whole m.toUInt64)) (.num (.whole n.toUInt64)) ↔
      m = n := by
    intro m n
    rw [Json.Agree, hR, UInt32.toUInt64_inj]
  rw [Point.toJson_eq, Point.toJson_eq]
  refine Iff.trans (Json.agree_present rfl ?_) ?_
  · simp [Fields.Distinct]
  obtain ⟨offset, line, column⟩ := point
  obtain ⟨offset', line', column'⟩ := other
  simp [Fields.Paired, rel_map_iff hword, Json.Agree, hR offset offset']

/-- Only equal spans are printed alike. -/
theorem Span.agree_toJson (span other : Span) :
    Json.Agree R span.toJson other.toJson ↔ span = other := by
  rw [Span.toJson_eq, Span.toJson_eq]
  refine Iff.trans (Json.agree_present rfl ?_) ?_
  · simp [Fields.Distinct]
  obtain ⟨start, stop⟩ := span
  obtain ⟨start', stop'⟩ := other
  simp [Fields.Paired, rel_map_iff (Point.agree_toJson hR), Point.agree_toJson hR]

end

theorem Scalar.agree_toJson (value other : Scalar) :
    Json.Agree R value.toJson other.toJson ↔ Scalar.Agree R value other := by
  cases value <;> cases other <;> simp [Scalar.toJson, Json.Agree, Scalar.Agree]

/-- Properties are printed alike if they agree one by one. -/
theorem Scalar.paired_toJson (properties others : Fields Scalar) :
    Fields.Paired (Json.Agree R) (properties.map fun entry => (entry.1, entry.2.toJson))
        (others.map fun entry => (entry.1, entry.2.toJson)) ↔
      Fields.Paired (Scalar.Agree R) properties others := by
  simp only [Fields.Paired, List.forall₂_map_left_iff, List.forall₂_map_right_iff,
    Scalar.agree_toJson]

mutual

/-- Nodes are printed alike exactly if they agree. -/
theorem Node.agree_toJson (hR : Number.Separates R) (node other : Node) :
    Json.Agree R node.toJson other.toJson ↔ Node.Agree R node other := by
  have htext : ∀ text text' : String, Json.Agree R (.str text) (.str text') ↔ text = text' := by
    intro text text'
    rw [Json.Agree]
  obtain ⟨kind, token, position, properties, slots⟩ := node
  rw [Node.toJson_eq, Node.toJson_eq]
  refine Iff.trans (Json.agree_present rfl ?_) ?_
  · simp [Fields.Distinct]
  simp only [Fields.Paired, List.forall₂_cons, List.forall₂_nil_left_iff, Option.rel_some_some,
    true_and, and_true, htext, rel_map_iff htext, rel_map_iff (Span.agree_toJson hR)]
  rw [Json.rel_nonEmpty, Json.rel_nonEmpty, Scalar.paired_toJson,
    Node.agreeSlots_toJson hR slots other.slots, Node.Agree]

theorem Node.agreeSlots_toJson (hR : Number.Separates R) (slots others : List (String × Slot)) :
    Fields.Paired (Json.Agree R) (Node.slotsToJson slots) (Node.slotsToJson others) ↔
      Node.AgreeSlots R slots others := by
  match slots, others with
  | [], [] => simp [Node.slotsToJson, Fields.Paired, Node.AgreeSlots]
  | [], (_, _) :: _ => simp [Node.slotsToJson, Fields.Paired, Node.AgreeSlots]
  | (_, _) :: _, [] => simp [Node.slotsToJson, Fields.Paired, Node.AgreeSlots]
  | (name, slot) :: rest, (name', slot') :: others =>
    have hrest := Node.agreeSlots_toJson hR rest others
    have hslot := Slot.agree_toJson hR slot slot'
    rw [Node.slotsToJson, Node.slotsToJson, Node.AgreeSlots, ← hrest, ← hslot]
    exact List.forall₂_cons

theorem Slot.agree_toJson (hR : Number.Separates R) (slot other : Slot) :
    Json.Agree R slot.toJson other.toJson ↔ Slot.Agree R slot other := by
  match slot, other with
  | .single node, .single other =>
    rw [Slot.toJson, Slot.toJson, Slot.Agree]
    exact Node.agree_toJson hR node other
  | .sequence nodes, .sequence others =>
    rw [Slot.toJson, Slot.toJson, Slot.Agree, Json.Agree, Json.agreeItems_iff]
    exact Node.agreeNodes_toJson hR nodes others
  -- a node is printed as a record, never as a sequence
  | .single node, .sequence others => simp [Slot.toJson, Node.toJson_eq, Json.Agree, Slot.Agree]
  | .sequence nodes, .single other => simp [Slot.toJson, Node.toJson_eq, Json.Agree, Slot.Agree]

theorem Node.agreeNodes_toJson (hR : Number.Separates R) (nodes others : List Node) :
    List.Forall₂ (Json.Agree R) (Node.nodesToJson nodes) (Node.nodesToJson others) ↔
      Node.AgreeNodes R nodes others := by
  match nodes, others with
  | [], [] => simp [Node.nodesToJson, Node.AgreeNodes]
  | [], _ :: _ => simp [Node.nodesToJson, Node.AgreeNodes]
  | _ :: _, [] => simp [Node.nodesToJson, Node.AgreeNodes]
  | node :: rest, other :: others =>
    have hnode := Node.agree_toJson hR node other
    have hrest := Node.agreeNodes_toJson hR rest others
    rw [Node.nodesToJson, Node.nodesToJson, Node.AgreeNodes, ← hnode, ← hrest]
    exact List.forall₂_cons

end

/-! ## Equality -/

mutual

/-- Every value agrees with itself, if every number does. -/
theorem Json.agree_self (hR : ∀ number, R number number) (value : Json) :
    Json.Agree R value value := by
  match value with
  | .null => rw [Json.Agree]; trivial
  | .bool _ => rw [Json.Agree]
  | .num number => rw [Json.Agree]; exact hR number
  | .str _ => rw [Json.Agree]
  | .arr items => rw [Json.Agree]; exact Json.agreeItems_self hR items
  | .obj fields => rw [Json.Agree]; exact Json.agreeFields_self hR fields

theorem Json.agreeItems_self (hR : ∀ number, R number number) (items : List Json) :
    Json.AgreeItems R items items := by
  match items with
  | [] => rw [Json.AgreeItems]; trivial
  | item :: rest =>
    rw [Json.AgreeItems]
    exact ⟨Json.agree_self hR item, Json.agreeItems_self hR rest⟩

theorem Json.agreeFields_self (hR : ∀ number, R number number) (fields : List (String × Json)) :
    Json.AgreeFields R fields fields := by
  match fields with
  | [] => rw [Json.AgreeFields]; trivial
  | (name, value) :: rest =>
    rw [Json.AgreeFields]
    exact ⟨⟨rfl, Json.agree_self hR value⟩, Json.agreeFields_self hR rest⟩

end

theorem Scalar.eq_of_agree {value other : Scalar} (h : Scalar.Agree Eq value other) :
    value = other := by
  cases value <;> cases other <;> simp_all [Scalar.Agree]

theorem Scalar.eq_of_paired {properties others : Fields Scalar}
    (h : Fields.Paired (Scalar.Agree Eq) properties others) : properties = others := by
  induction h with
  | nil => rfl
  | cons hentry _ ih => rw [ih, Prod.ext hentry.1 (Scalar.eq_of_agree hentry.2)]

mutual

/-- Nodes that agree down to their numbers are equal. -/
theorem Node.eq_of_agree {node other : Node} (h : Node.Agree Eq node other) : node = other := by
  match node, other with
  | ⟨kind, token, position, properties, slots⟩, ⟨kind', token', position', properties', slots'⟩ =>
    rw [Node.Agree] at h
    obtain ⟨hkind, htoken, hposition, hproperties, hslots⟩ := h
    rw [Node.mk.injEq]
    exact ⟨hkind, htoken, hposition, Scalar.eq_of_paired hproperties, Node.eq_of_agreeSlots hslots⟩

theorem Node.eq_of_agreeSlots {slots others : List (String × Slot)}
    (h : Node.AgreeSlots Eq slots others) : slots = others := by
  match slots, others with
  | [], [] => rfl
  | [], (_, _) :: _ => simp [Node.AgreeSlots] at h
  | (_, _) :: _, [] => simp [Node.AgreeSlots] at h
  | (name, slot) :: rest, (name', slot') :: others =>
    rw [Node.AgreeSlots] at h
    rw [h.1.1, Slot.eq_of_agree h.1.2, Node.eq_of_agreeSlots h.2]

theorem Slot.eq_of_agree {slot other : Slot} (h : Slot.Agree Eq slot other) : slot = other := by
  match slot, other with
  | .single node, .single other =>
    rw [Slot.Agree] at h
    rw [Node.eq_of_agree h]
  | .sequence nodes, .sequence others =>
    rw [Slot.Agree] at h
    rw [Node.eq_of_agreeNodes h]
  | .single _, .sequence _ => simp [Slot.Agree] at h
  | .sequence _, .single _ => simp [Slot.Agree] at h

theorem Node.eq_of_agreeNodes {nodes others : List Node} (h : Node.AgreeNodes Eq nodes others) :
    nodes = others := by
  match nodes, others with
  | [], [] => rfl
  | [], _ :: _ => simp [Node.AgreeNodes] at h
  | _ :: _, [] => simp [Node.AgreeNodes] at h
  | node :: rest, other :: others =>
    rw [Node.AgreeNodes] at h
    rw [Node.eq_of_agree h.1, Node.eq_of_agreeNodes h.2]

end

/-- The numbers have the same form and value. -/
def Number.Same (number other : Number) : Prop :=
  number.sameValue other = true

theorem Number.separates_same : Number.Separates Number.Same := by
  intro m n
  simp [Number.Same, Number.sameValue]

theorem Number.separates_eq : Number.Separates Eq := by
  intro m n
  simp

/-- Two nodes that are printed as the same value, numbers being compared by form and value, agree in
all their parts at every depth, orders included; and nodes that are printed as one value are equal,
the signs of their zeros included. -/
theorem Node.toJson_faithful (node other : Node) :
    (Json.Agree Number.Same node.toJson other.toJson ↔ Node.Agree Number.Same node other) ∧
      (node.toJson = other.toJson ↔ node = other) := by
  refine ⟨Node.agree_toJson Number.separates_same node other, fun h => ?_, fun h => by rw [h]⟩
  have hagree : Json.Agree Eq node.toJson other.toJson := by
    rw [h]
    exact Json.agree_self (fun _ => rfl) other.toJson
  exact Node.eq_of_agree ((Node.agree_toJson Number.separates_eq node other).mp hagree)

end CanonicalTree
