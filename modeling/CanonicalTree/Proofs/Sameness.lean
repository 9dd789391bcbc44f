import CanonicalTree.Proofs.Matching
import Mathlib.Data.List.Perm.Subperm

/-!
# When two trees are the same

`Node.same` compares two nodes by looking up the entries of one in the other. On well-formed trees
this is what its name says: two nodes are the same if they agree in kind, token and position, hold
the same scalar under every key and the same children under every slot name (`Node.same_iff`). The
order of properties and slots does not occur in this description, and from it follows that sameness
is an equivalence.
-/

namespace CanonicalTree

/-! ## Fields without their order -/

namespace Fields

variable {α β γ : Type}

/-- The same names hold related values, in whatever order. -/
def Alike (R : α → β → Prop) (left : Fields α) (right : Fields β) : Prop :=
  ∀ key, Option.Rel R (get? left key) (get? right key)

instance (fields : Fields α) : Decidable (Distinct fields) :=
  inferInstanceAs (Decidable (keys fields).Nodup)

/-- Nothing is found under a name exactly if it is not among the names. -/
theorem get?_eq_none_iff {fields : Fields α} {key : String} :
    get? fields key = none ↔ key ∉ keys fields := by
  rw [← get?_isSome_iff]
  cases get? fields key <;> simp

theorem mem_keys_of_mem {fields : Fields α} {entry : String × α} (h : entry ∈ fields) :
    entry.1 ∈ keys fields :=
  List.mem_map_of_mem h

/-- Where no name occurs twice, every entry is found under its name. -/
theorem Distinct.get?_eq_some_iff {fields : Fields α} (h : Distinct fields) {key : String}
    {value : α} : get? fields key = some value ↔ (key, value) ∈ fields := by
  refine ⟨mem_of_get?, fun hmem => ?_⟩
  induction fields with
  | nil => cases hmem
  | cons entry rest ih =>
    obtain ⟨hfresh, hrest⟩ := List.nodup_cons.mp h
    rw [get?]
    rcases List.mem_cons.mp hmem with heq | hmem
    · cases heq
      exact if_pos rfl
    · have hne : entry.1 ≠ key := fun heq => hfresh (heq ▸ mem_keys_of_mem hmem)
      rw [if_neg hne]
      exact ih hrest hmem

/-- Names without repetition that all occur in a list of no more names are all of them. -/
theorem keys_subset_of_length_le {left : Fields α} {right : Fields β} (h : Distinct left)
    (hsub : keys left ⊆ keys right) (hlength : right.length ≤ left.length) :
    keys right ⊆ keys left := by
  have hperm : (keys left).Perm (keys right) := by
    refine (List.subperm_of_subset h hsub).perm_of_length_le ?_
    simpa [keys] using hlength
  exact hperm.symm.subset

/-- A name is missing on both sides, or holds related values. -/
theorem Alike.lookup {R : α → β → Prop} {left : Fields α} {right : Fields β}
    (h : Alike R left right) (key : String) :
    (get? left key = none ∧ get? right key = none) ∨
      ∃ value other, get? left key = some value ∧ get? right key = some other ∧ R value other := by
  have hrel := h key
  generalize get? left key = found at hrel ⊢
  generalize get? right key = others at hrel ⊢
  cases hrel with
  | none => exact Or.inl ⟨rfl, rfl⟩
  | some hvalue => exact Or.inr ⟨_, _, rfl, rfl, hvalue⟩

/-- Fields are alike themselves if their values are. -/
theorem Alike.refl {R : α → α → Prop} {fields : Fields α}
    (hR : ∀ entry ∈ fields, R entry.2 entry.2) : Alike R fields fields := by
  intro key
  cases hfound : get? fields key with
  | none => exact .none
  | some value => exact .some (hR _ (mem_of_get? hfound))

/-- Fields that are alike to the same fields are alike to each other. -/
theorem Alike.euclidean {R : α → β → Prop} {S : α → γ → Prop} {T : β → γ → Prop} {fields : Fields α}
    {left : Fields β} {right : Fields γ}
    (hT : ∀ entry ∈ fields, ∀ other ∈ left, ∀ third ∈ right,
      R entry.2 other.2 → S entry.2 third.2 → T other.2 third.2)
    (hleft : Alike R fields left) (hright : Alike S fields right) : Alike T left right := by
  intro key
  rcases hleft.lookup key with ⟨hnone, hmissing⟩ | ⟨value, other, hvalue, hother, hR⟩
  · rcases hright.lookup key with ⟨-, hmissing'⟩ | ⟨_, _, hsome, -, -⟩
    · rw [hmissing, hmissing']
      exact .none
    · rw [hnone] at hsome
      cases hsome
  · rcases hright.lookup key with ⟨hnone, -⟩ | ⟨same, third, hsame, hthird, hS⟩
    · rw [hvalue] at hnone
      cases hnone
    · rw [hvalue] at hsame
      cases hsame
      rw [hother, hthird]
      exact .some (hT _ (mem_of_get? hvalue) _ (mem_of_get? hother) _ (mem_of_get? hthird) hR hS)

/-- Fields that are alike have the same names. -/
theorem Alike.mem_keys_iff {R : α → β → Prop} {left : Fields α} {right : Fields β}
    (h : Alike R left right) (key : String) : key ∈ keys left ↔ key ∈ keys right := by
  rw [← get?_isSome_iff, ← get?_isSome_iff]
  rcases h.lookup key with ⟨hleft, hright⟩ | ⟨_, _, hleft, hright, -⟩
  · rw [hleft, hright]
    simp
  · rw [hleft, hright]
    simp

/-- Counting the entries and looking up one side in the other tells whether fields are alike. -/
theorem agree_iff_alike {same : α → β → Bool} {left : Fields α} {right : Fields β}
    (hleft : Distinct left) (hright : Distinct right) :
    agree same left right = true ↔
      Alike (fun value other => same value other = true) left right := by
  unfold agree
  rw [Bool.and_eq_true, beq_iff_eq, List.all_eq_true]
  constructor
  · rintro ⟨hlength, hall⟩ key
    have hfound : ∀ key value, get? left key = some value →
        ∃ other, get? right key = some other ∧ same value other = true := by
      intro key value hvalue
      have hentry := hall _ (mem_of_get? hvalue)
      split at hentry
      · next other hother => exact ⟨other, hother, hentry⟩
      · cases hentry
    cases hvalue : get? left key with
    | some value =>
      obtain ⟨other, hother, hsame⟩ := hfound key value hvalue
      rw [hother]
      exact .some hsame
    | none =>
      -- a further name on the right would make the right side longer
      have hsub : keys left ⊆ keys right := by
        intro name hname
        obtain ⟨value, hvalue⟩ :=
          Option.isSome_iff_exists.mp ((get?_isSome_iff left name).mpr hname)
        obtain ⟨other, hother, -⟩ := hfound name value hvalue
        rw [← get?_isSome_iff, hother]
        rfl
      have hback := keys_subset_of_length_le hleft hsub (by omega)
      have hmissing : get? right key = none := by
        rw [get?_eq_none_iff] at hvalue ⊢
        exact fun hkey => hvalue (hback hkey)
      rw [hmissing]
      exact .none
  · intro h
    constructor
    · have hle := (List.subperm_of_subset hleft fun key => (h.mem_keys_iff key).mp).length_le
      have hge := (List.subperm_of_subset hright fun key => (h.mem_keys_iff key).mpr).length_le
      simp only [keys, List.length_map] at hle hge
      omega
    · rintro ⟨key, value⟩ hentry
      have hvalue := hleft.get?_eq_some_iff.mpr hentry
      rcases h.lookup key with ⟨hnone, -⟩ | ⟨found, other, hfound, hother, hsame⟩
      · rw [hvalue] at hnone
        cases hnone
      · rw [hvalue] at hfound
        cases hfound
        simpa [hother] using hsame

end Fields

/-! ## Scalars -/

/-- Two real numbers have the same value if they are equal or both zero. -/
theorem Binary64.sameValue_iff {x y : Binary64} :
    x.sameValue y = true ↔ x = y ∨ x.rank.val = 0 ∧ y.rank.val = 0 := by
  simp [sameValue]

namespace Scalar

/-- The number is a real zero, of either sign. -/
def IsRealZero (value : Scalar) : Prop :=
  ∃ x : Binary64, value = .num (.real x) ∧ x.rank.val = 0

/-- Scalars have the same value if they are equal or both real zeros. -/
theorem sameValue_iff {value other : Scalar} :
    value.sameValue other = true ↔ value = other ∨ value.IsRealZero ∧ other.IsRealZero := by
  cases value with
  | null => cases other <;> simp [sameValue, IsRealZero]
  | bool flag => cases other <;> simp [sameValue, IsRealZero]
  | str text => cases other <;> simp [sameValue, IsRealZero]
  | num number =>
    cases other with
    | num other =>
      cases number <;> cases other <;>
        simp [sameValue, Number.sameValue, IsRealZero, Binary64.sameValue_iff]
    | _ => simp [sameValue, IsRealZero]

/-- Scalars with the same value as a third have the same value. -/
theorem sameValue_euclidean {value left right : Scalar} (hleft : value.sameValue left = true)
    (hright : value.sameValue right = true) : left.sameValue right = true := by
  rw [sameValue_iff] at hleft hright ⊢
  rcases hleft with rfl | ⟨hvalue, hzero⟩
  · exact hright
  · rcases hright with rfl | ⟨-, hzero'⟩
    · exact Or.inr ⟨hzero, hvalue⟩
    · exact Or.inr ⟨hzero, hzero'⟩

end Scalar

/-! ## Nodes -/

namespace Node

theorem wellFormedNodes_iff {nodes : List Node} :
    WellFormedNodes nodes ↔ ∀ node ∈ nodes, node.WellFormed := by
  induction nodes with
  | nil => simp [WellFormedNodes]
  | cons node rest ih => simp [WellFormedNodes, ih]

theorem wellFormedSlots_iff {slots : List (String × Slot)} :
    WellFormedSlots slots ↔ ∀ entry ∈ slots, ∀ node ∈ entry.2.nodes, node.WellFormed := by
  induction slots with
  | nil => simp [WellFormedSlots]
  | cons entry rest ih =>
    obtain ⟨name, slot⟩ := entry
    cases slot with
    | single node => simp [WellFormedSlots, Slot.WellFormed, Slot.nodes, ih]
    | sequence nodes =>
      simp [WellFormedSlots, Slot.WellFormed, Slot.nodes, wellFormedNodes_iff, ih]

/-- A tree is well formed if its root and its children are. -/
theorem wellFormed_iff {node : Node} :
    node.WellFormed ↔ Fields.Distinct node.properties ∧ Fields.Distinct node.slots ∧
      ∀ child ∈ node.children, child.WellFormed := by
  obtain ⟨kind, token, position, properties, slots⟩ := node
  rw [WellFormed, wellFormedSlots_iff]
  simp only [mem_children]
  constructor
  · rintro ⟨hproperties, hslots, hchildren⟩
    refine ⟨hproperties, hslots, ?_⟩
    rintro child ⟨entry, hentry, hchild⟩
    exact hchildren entry hentry child hchild
  · rintro ⟨hproperties, hslots, hchildren⟩
    exact ⟨hproperties, hslots, fun entry hentry child hchild =>
      hchildren child ⟨entry, hentry, hchild⟩⟩

/-- Every node of a well-formed tree is well formed. -/
theorem WellFormed.of_mem_descendants {node part : Node} (h : node.WellFormed)
    (hpart : part ∈ node.descendants) : part.WellFormed := by
  induction node using induction_children with
  | step node ih =>
    rcases mem_descendants.mp hpart with rfl | ⟨child, hchild, hpart⟩
    · exact h
    · exact ih child hchild ((wellFormed_iff.mp h).2.2 child hchild) hpart

theorem sameNodes_iff {nodes others : List Node} :
    sameNodes nodes others = true ↔
      List.Forall₂ (fun node other => node.same other = true) nodes others := by
  induction nodes generalizing others with
  | nil => cases others <;> simp [sameNodes]
  | cons node rest ih => cases others <;> simp [sameNodes, ih]

end Node

/-- Sequences that are related to a third are related to each other, if nodes are. -/
theorem forall₂_euclidean {R S T : Node → Node → Prop} {nodes left right : List Node}
    (hT : ∀ node ∈ nodes, ∀ first ∈ left, ∀ second ∈ right,
      R node first → S node second → T first second)
    (hleft : List.Forall₂ R nodes left) (hright : List.Forall₂ S nodes right) :
    List.Forall₂ T left right := by
  induction hleft generalizing right with
  | nil =>
    cases hright
    exact .nil
  | cons hfirst _ ih =>
    cases hright with
    | cons hsecond hrest =>
      refine .cons
        (hT _ List.mem_cons_self _ List.mem_cons_self _ List.mem_cons_self hfirst hsecond)
        (ih ?_ hrest)
      intro node hnode first hmem second hmem'
      exact hT node (List.mem_cons_of_mem _ hnode) first (List.mem_cons_of_mem _ hmem) second
        (List.mem_cons_of_mem _ hmem')

namespace Slot

theorem Related.refl {R : Node → Node → Prop} {slot : Slot} (h : ∀ node ∈ slot.nodes, R node node) :
    slot.Related R slot := by
  cases slot with
  | single node => exact h node (List.mem_singleton.mpr rfl)
  | sequence nodes => exact List.forall₂_same.mpr h

/-- Slots that are related to a third are related to each other, if nodes are. -/
theorem Related.euclidean {R S T : Node → Node → Prop} {slot left right : Slot}
    (hT : ∀ node ∈ slot.nodes, ∀ first ∈ left.nodes, ∀ second ∈ right.nodes,
      R node first → S node second → T first second)
    (hleft : slot.Related R left) (hright : slot.Related S right) : left.Related T right := by
  have hnodes := forall₂_euclidean hT hleft.forall₂_nodes hright.forall₂_nodes
  match slot, left, right with
  | .single _, .single _, .single _ => exact (List.forall₂_cons.mp hnodes).1
  | .sequence _, .sequence _, .sequence _ => exact hnodes
  | .single _, .sequence _, _ => exact hleft.elim
  | .sequence _, .single _, _ => exact hleft.elim
  | .single _, .single _, .sequence _ => exact hright.elim
  | .sequence _, .sequence _, .single _ => exact hright.elim

end Slot

/-- Slots are the same if they have the same form and the same nodes. -/
theorem Slot.same_iff {slot other : Slot} :
    slot.same other = true ↔ slot.Related (fun node other => node.same other = true) other := by
  cases slot <;> cases other <;> simp [Slot.same, Slot.Related, Node.sameNodes_iff]

namespace Node

/-- Slots are compared whatever their order. -/
theorem sameSlots_eq (slots others : List (String × Slot)) :
    (slots.length == others.length && sameSlots slots others) =
      Fields.agree Slot.same slots others := by
  unfold Fields.agree
  congr 1
  induction slots with
  | nil => simp [sameSlots]
  | cons entry rest ih =>
    rw [sameSlots, List.all_cons, ih]
    cases Fields.get? others entry.1 <;> rfl

/-- Two well-formed nodes are the same if they agree in kind, token and position, in the scalar
under every key and in what every slot holds. -/
theorem same_iff {node other : Node} (hnode : node.WellFormed) (hother : other.WellFormed) :
    node.same other = true ↔
      node.kind = other.kind ∧ node.token = other.token ∧ node.position = other.position ∧
        (∀ key, Option.Rel (fun value other => value.sameValue other = true)
          (node.property? key) (other.property? key)) ∧
        ∀ name, Option.Rel (Slot.Related fun node other => node.same other = true)
          (node.slot? name) (other.slot? name) := by
  obtain ⟨hproperties, hslots, -⟩ := wellFormed_iff.mp hnode
  obtain ⟨hproperties', hslots', -⟩ := wellFormed_iff.mp hother
  obtain ⟨kind, token, position, properties, slots⟩ := node
  rw [same, Bool.and_assoc, sameSlots_eq]
  simp only [Bool.and_eq_true, beq_iff_eq, Fields.agree_iff_alike hproperties hproperties',
    Fields.agree_iff_alike hslots hslots', Slot.same_iff, and_assoc]
  rfl

/-- A well-formed node is the same as itself. -/
theorem same_refl {node : Node} (h : node.WellFormed) : node.same node = true := by
  induction node using induction_children with
  | step node ih =>
    obtain ⟨-, -, hchildren⟩ := wellFormed_iff.mp h
    have hslots : Fields.Alike (Slot.Related fun node other => node.same other = true)
        node.slots node.slots := by
      refine Fields.Alike.refl fun entry hentry => Slot.Related.refl fun child hchild => ?_
      have hmem := mem_children.mpr ⟨entry, hentry, hchild⟩
      exact ih child hmem (hchildren child hmem)
    have hproperties : Fields.Alike (fun value other => value.sameValue other = true)
        node.properties node.properties :=
      Fields.Alike.refl fun entry _ => Scalar.sameValue_refl entry.2
    exact (same_iff h h).mpr ⟨rfl, rfl, rfl, hproperties, hslots⟩

/-- Well-formed nodes that are the same as one node are the same; with reflexivity, sameness is an
equivalence on well-formed nodes. -/
theorem same_euclidean {node left right : Node} (hnode : node.WellFormed) (hleft : left.WellFormed)
    (hright : right.WellFormed) (h : node.same left = true) (h' : node.same right = true) :
    left.same right = true := by
  induction node using induction_children generalizing left right with
  | step node ih =>
    obtain ⟨hkind, htoken, hposition, hproperties, hslots⟩ := (same_iff hnode hleft).mp h
    obtain ⟨hkind', htoken', hposition', hproperties', hslots'⟩ := (same_iff hnode hright).mp h'
    refine (same_iff hleft hright).mpr ⟨hkind.symm.trans hkind', htoken.symm.trans htoken',
      hposition.symm.trans hposition', ?_, ?_⟩
    · exact Fields.Alike.euclidean (fun _ _ _ _ _ _ => Scalar.sameValue_euclidean)
        hproperties hproperties'
    · refine Fields.Alike.euclidean ?_ hslots hslots'
      intro entry hentry other hother third hthird hrelated hrelated'
      refine Slot.Related.euclidean ?_ hrelated hrelated'
      intro child hchild first hfirst second hsecond
      have hmem := mem_children.mpr ⟨entry, hentry, hchild⟩
      exact ih child hmem ((wellFormed_iff.mp hnode).2.2 child hmem)
        ((wellFormed_iff.mp hleft).2.2 first (mem_children.mpr ⟨other, hother, hfirst⟩))
        ((wellFormed_iff.mp hright).2.2 second (mem_children.mpr ⟨third, hthird, hsecond⟩))

end Node

/-! ## Kept values -/

namespace Capture

/-- All nodes of a kept value are well formed. -/
def WellFormed (value : Capture) : Prop :=
  ∀ node ∈ value.nodes, node.WellFormed

/-- A well-formed capture is the same as itself. -/
theorem same_refl {value : Capture} (h : value.WellFormed) : value.same value = true := by
  cases value with
  | single node => exact Node.same_refl (h node (List.mem_singleton.mpr rfl))
  | sequence nodes =>
    refine Node.sameNodes_iff.mpr (List.forall₂_same.mpr fun node hnode => ?_)
    exact Node.same_refl (h node hnode)
  | scalar value => exact value.sameValue_refl

/-- Captures that are the same as a third are the same as each other. -/
theorem same_euclidean {value left right : Capture} (hvalue : value.WellFormed)
    (hleft : left.WellFormed) (hright : right.WellFormed) (h : value.same left = true)
    (h' : value.same right = true) : left.same right = true := by
  match value, left, right with
  | .single node, .single first, .single second =>
    have hself : ∀ node : Node, node ∈ [node] := fun node => List.mem_singleton.mpr rfl
    exact Node.same_euclidean (hvalue node (hself node)) (hleft first (hself first))
      (hright second (hself second)) h h'
  | .sequence nodes, .sequence firsts, .sequence seconds =>
    refine Node.sameNodes_iff.mpr (forall₂_euclidean ?_ (Node.sameNodes_iff.mp h)
      (Node.sameNodes_iff.mp h'))
    intro node hnode first hfirst second hsecond
    exact Node.same_euclidean (hvalue node hnode) (hleft first hfirst) (hright second hsecond)
  | .scalar _, .scalar _, .scalar _ => exact Scalar.sameValue_euclidean h h'
  -- values of different sorts are never the same
  | .single _, .sequence _, _ | .single _, .scalar _, _ => cases h
  | .sequence _, .single _, _ | .sequence _, .scalar _, _ => cases h
  | .scalar _, .single _, _ | .scalar _, .sequence _, _ => cases h
  | .single _, .single _, .sequence _ | .single _, .single _, .scalar _ => cases h'
  | .sequence _, .sequence _, .single _ | .sequence _, .sequence _, .scalar _ => cases h'
  | .scalar _, .scalar _, .single _ | .scalar _, .scalar _, .sequence _ => cases h'

end Capture

end CanonicalTree
