import CanonicalTree.Proofs.Descendants
import CanonicalTree.Proofs.Outcomes
import CanonicalTree.Rule.Match

/-!
# What a match keeps

A match keeps nothing that it was not shown: every node that a pattern keeps, alone or in a
sequence, is a part of the node that the pattern was tried on (`captures?_within`).
-/

namespace CanonicalTree

/-- The value found under a key is stored under it. -/
theorem Fields.mem_of_get? {α : Type} {fields : Fields α} {key : String} {value : α}
    (h : Fields.get? fields key = some value) : (key, value) ∈ fields := by
  induction fields with
  | nil => cases h
  | cons entry rest ih =>
    obtain ⟨name, stored⟩ := entry
    rw [Fields.get?] at h
    split at h
    · next hname =>
      cases h
      rw [hname]
      exact List.mem_cons_self
    · exact List.mem_cons_of_mem _ (ih h)

/-- The nodes in a slot are children. -/
theorem Node.mem_children_of_slot? {node child : Node} {name : String} {slot : Slot}
    (h : node.slot? name = some slot) (hchild : child ∈ slot.nodes) : child ∈ node.children :=
  Node.mem_children.mpr ⟨(name, slot), Fields.mem_of_get? h, hchild⟩

/-- The nodes of a kept value. -/
def Capture.nodes : Capture → List Node
  | .single node => [node]
  | .sequence nodes => nodes
  | .scalar _ => []

theorem Capture.nodes_ofSlot (slot : Slot) : (Capture.ofSlot slot).nodes = slot.nodes := by
  cases slot <;> rfl

/-- All nodes kept are parts of `root`. -/
def Captures.Within (root : Node) (captures : Captures) : Prop :=
  ∀ entry ∈ captures, ∀ node ∈ entry.2.nodes, node ∈ root.descendants

section Keeping

variable {root : Node} {captures next : Captures} {value : Capture}

/-- Keeping nodes of the tree leaves captures within it. -/
theorem Captures.Within.keep {name : String} (h : captures.Within root)
    (hvalue : ∀ node ∈ value.nodes, node ∈ root.descendants)
    (hkeep : captures.keep name value = some next) : next.Within root := by
  unfold Captures.keep at hkeep
  split at hkeep
  · cases hkeep
    exact h
  · split at hkeep
    · split at hkeep
      · cases hkeep
        exact h
      · cases hkeep
    · cases hkeep
      intro entry hentry
      rcases List.mem_append.mp hentry with hold | hnew
      · exact h entry hold
      · rw [List.mem_singleton.mp hnew]
        exact hvalue

theorem Captures.Within.keepAs {name : Option String} (h : captures.Within root)
    (hvalue : ∀ node ∈ value.nodes, node ∈ root.descendants)
    (hkeep : captures.keepAs name value = some next) : next.Within root := by
  cases name with
  | none =>
    cases hkeep
    exact h
  | some name => exact h.keep hvalue hkeep

/-- A clause for the token adds no nodes. -/
theorem TokenClause.match?_within {clause : TokenClause} {token : Option String}
    (h : captures.Within root) (hmatch : clause.match? token captures = some next) :
    next.Within root := by
  unfold TokenClause.match? at hmatch
  split at hmatch
  · cases hmatch; exact h
  · cases hmatch; exact h
  · cases hmatch; exact h
  · split at hmatch
    · cases hmatch; exact h
    · cases hmatch
  · exact h.keep (by simp [Capture.nodes]) hmatch
  · cases hmatch

theorem PropertyClause.match?_within {clause : PropertyClause} {value : Option Scalar}
    (h : captures.Within root) (hmatch : clause.match? value captures = some next) :
    next.Within root := by
  unfold PropertyClause.match? at hmatch
  split at hmatch
  · cases hmatch; exact h
  · cases hmatch; exact h
  · split at hmatch
    · cases hmatch; exact h
    · cases hmatch
  · exact h.keep (by simp [Capture.nodes]) hmatch
  · cases hmatch

end Keeping

/-! ## Patterns -/

variable {root : Node}

mutual

/-- A pattern that is tried on a part of `root` keeps parts of `root` only. -/
theorem Pattern.match?_within : ∀ (pattern : Pattern) {node : Node} {captures next : Captures},
    node ∈ root.descendants → captures.Within root →
      pattern.match? node captures = some next → next.Within root
  | ⟨kind, token, properties, slots, bind⟩, node, captures, next, hnode, h, hmatch => by
    rw [Pattern.match?] at hmatch
    split at hmatch
    · obtain ⟨afterToken, htoken, hmatch⟩ := Option.bind_eq_some_iff.mp hmatch
      obtain ⟨afterProperties, hproperties, hmatch⟩ := Option.bind_eq_some_iff.mp hmatch
      obtain ⟨afterSlots, hslots, hmatch⟩ := Option.bind_eq_some_iff.mp hmatch
      have hafterToken := TokenClause.match?_within h htoken
      have hafterProperties : afterProperties.Within root :=
        foldlM_some_invariant (Captures.Within root)
          (fun clause _ state next hstate hnext => PropertyClause.match?_within hstate hnext)
          hafterToken hproperties
      have hafterSlots := Pattern.matchSlots?_within slots hnode hafterProperties hslots
      refine hafterSlots.keepAs ?_ hmatch
      simpa [Capture.nodes] using hnode
    · cases hmatch

/-- Clauses for slots add only nodes of the tree. -/
theorem Pattern.matchSlots?_within : ∀ (clauses : List (String × SlotClause)) {node : Node}
    {captures next : Captures}, node ∈ root.descendants → captures.Within root →
      Pattern.matchSlots? clauses node captures = some next → next.Within root
  | [], node, captures, next, hnode, h, hmatch => by
    rw [Pattern.matchSlots?] at hmatch
    cases hmatch
    exact h
  | (name, clause) :: rest, node, captures, next, hnode, h, hmatch => by
    rw [Pattern.matchSlots?] at hmatch
    split at hmatch
    · next after hclause =>
      have hafter : Captures.Within root after := by
        refine SlotClause.match?_within clause ?_ h hclause
        intro slot hslot child hchild
        exact Node.mem_descendants_trans hnode
          (Node.mem_descendants_of_mem_children (Node.mem_children_of_slot? hslot hchild))
      exact Pattern.matchSlots?_within rest hnode hafter hmatch
    · cases hmatch

/-- A clause for a slot adds only nodes that are in the slot or below. -/
theorem SlotClause.match?_within : ∀ (clause : SlotClause) {slot : Option Slot}
    {captures next : Captures},
    (∀ content, slot = some content → ∀ child ∈ content.nodes, child ∈ root.descendants) →
      captures.Within root → clause.match? slot captures = some next → next.Within root
  | .absent, slot, captures, next, hslot, h, hmatch => by
    cases slot with
    | none =>
      rw [SlotClause.match?] at hmatch
      cases hmatch
      exact h
    | some slot => simp [SlotClause.match?] at hmatch
  | .single pattern, slot, captures, next, hslot, h, hmatch => by
    match slot with
    | none => simp [SlotClause.match?] at hmatch
    | some (.sequence nodes) => simp [SlotClause.match?] at hmatch
    | some (.single child) =>
      rw [SlotClause.match?] at hmatch
      exact Pattern.match?_within pattern (hslot _ rfl child (List.mem_singleton.mpr rfl)) h hmatch
  | .optional pattern, slot, captures, next, hslot, h, hmatch => by
    match slot with
    | none =>
      rw [SlotClause.match?] at hmatch
      cases hmatch
      exact h
    | some (.sequence nodes) => simp [SlotClause.match?] at hmatch
    | some (.single child) =>
      rw [SlotClause.match?] at hmatch
      exact Pattern.match?_within pattern (hslot _ rfl child (List.mem_singleton.mpr rfl)) h hmatch
  | .sequence none bind, slot, captures, next, hslot, h, hmatch => by
    match slot with
    | none => simp [SlotClause.match?] at hmatch
    | some (.single child) => simp [SlotClause.match?] at hmatch
    | some (.sequence nodes) =>
      rw [SlotClause.match?] at hmatch
      refine h.keepAs ?_ hmatch
      exact hslot _ rfl
  | .sequence (some pattern) bind, slot, captures, next, hslot, h, hmatch => by
    match slot with
    | none => simp [SlotClause.match?] at hmatch
    | some (.single child) => simp [SlotClause.match?] at hmatch
    | some (.sequence nodes) =>
      rw [SlotClause.match?] at hmatch
      split at hmatch
      · next after hnodes =>
        have hafter : Captures.Within root after :=
          foldlM_some_invariant (Captures.Within root)
            (fun node hmem state next hstate hnext =>
              Pattern.match?_within pattern (hslot _ rfl node hmem) hstate hnext)
            h hnodes
        refine hafter.keepAs ?_ hmatch
        exact hslot _ rfl
      · cases hmatch
  | .any bind, slot, captures, next, hslot, h, hmatch => by
    cases slot with
    | none => simp [SlotClause.match?] at hmatch
    | some slot =>
      rw [SlotClause.match?] at hmatch
      refine h.keepAs ?_ hmatch
      rw [Capture.nodes_ofSlot]
      exact hslot slot rfl

end

/-- What a pattern keeps of a node are parts of the node. -/
theorem Pattern.captures?_within {pattern : Pattern} {node : Node} {captures : Captures}
    (h : pattern.captures? node = some captures) : captures.Within node :=
  pattern.match?_within node.self_mem_descendants (by simp [Captures.Within]) h

end CanonicalTree
