import CanonicalTree.Proofs.Passes
import CanonicalTree.Proofs.Walk

/-!
# What a phase leaves alone

A phase takes every node of a tree apart and puts it together again, whether or not a rule matches
it. Where no rule matches, neither shows. A subtree that is settled stays what it is, and it also
stays where it is, as long as the nodes above it are kept: the rules see such a node with its
children rewritten (`Phase.Rebuilds`), so what happens beside the subtree has a say in this, and
the subtree alone cannot tell. `Phase.Spares` says of a whole path that no rule matches the nodes
that it passes through, and then the path leads to the same subtree before and after the phase
(`Phase.apply_spares`).
-/

namespace CanonicalTree

/-! ## Related trees, step by step -/

/-- What is found in fields is related to what is found in related ones. -/
theorem Fields.exists_related_of_get? {α β : Type} {R : α → β → Prop} {fields : Fields α}
    {others : Fields β}
    (h : List.Forall₂ (fun entry other => entry.1 = other.1 ∧ R entry.2 other.2) fields others)
    {key : String} {value : α} (hvalue : get? fields key = some value) :
    ∃ other, get? others key = some other ∧ R value other := by
  induction h with
  | nil => cases hvalue
  | @cons entry other rest others hentry _ ih =>
    rw [get?] at hvalue ⊢
    rw [← hentry.1]
    split at hvalue
    · next hname =>
      cases hvalue
      exact ⟨other.2, if_pos hname, hentry.2⟩
    · next hname =>
      rw [if_neg hname]
      exact ih hvalue

/-- An item is related to the item at the same index. -/
theorem exists_related_of_getElem? {α β : Type} {R : α → β → Prop} {items : List α}
    {others : List β} (h : List.Forall₂ R items others) {i : Nat} {item : α}
    (hitem : items[i]? = some item) : ∃ other, others[i]? = some other ∧ R item other := by
  induction h generalizing i with
  | nil => cases hitem
  | @cons first other _ _ hfirst _ ih =>
    cases i with
    | zero =>
      cases hitem
      exact ⟨other, rfl, hfirst⟩
    | succ i => exact ih hitem

namespace Node

variable {node child : Node} {steps : Path}

/-- The same steps lead to the related child. -/
theorem ChildAt.exists_related {R : Node → Node → Prop} {slots : Fields Slot}
    (h : node.ChildAt steps child) (hslots : Slots.Related R node.slots slots) :
    ∃ other, ({ node with slots } : Node).ChildAt steps other ∧ R child other := by
  cases h with
  | single hslot =>
    obtain ⟨found, hfound, hrelated⟩ := Fields.exists_related_of_get? hslots hslot
    cases found with
    | single other => exact ⟨other, .single hfound, hrelated⟩
    | sequence others => exact hrelated.elim
  | item hslot hitem =>
    obtain ⟨found, hfound, hrelated⟩ := Fields.exists_related_of_get? hslots hslot
    cases found with
    | single other => exact hrelated.elim
    | sequence others =>
      obtain ⟨other, hother, hchild⟩ := exists_related_of_getElem? hrelated hitem
      exact ⟨other, .item hfound hother, hchild⟩

end Node

/-! ## Paths through nodes that are kept -/

namespace Phase

variable {phase : Phase} {tree result part child : Node} {path steps : Path}

/-- No rule matches the node. -/
def Unmatched (phase : Phase) (node : Node) : Prop :=
  ∀ rule ∈ phase.rules, rule.captures? node = none

instance (phase : Phase) (node : Node) : Decidable (phase.Unmatched node) :=
  inferInstanceAs (Decidable (∀ rule ∈ phase.rules, rule.captures? node = none))

instance (phase : Phase) (tree : Node) : Decidable (phase.Settled tree) :=
  inferInstanceAs (Decidable (∀ part ∈ tree.descendants, phase.Unmatched part))

/-- What the rules see of a node: the node with its children rewritten. -/
def Rebuilds (phase : Phase) (node rebuilt : Node) : Prop :=
  ∃ slots, Slots.Related (fun child result => phase.apply child = .ok result) node.slots slots ∧
    rebuilt = { node with slots }

/-- No rule matches a node that the path passes through on its way, as the rules see it. -/
def Spares (phase : Phase) (tree : Node) (path : Path) : Prop :=
  ∀ front back ancestor rebuilt, path = front ++ back → back ≠ [] →
    tree.follow front = some ancestor → phase.Rebuilds ancestor rebuilt → phase.Unmatched rebuilt

/-- A node is rebuilt by what becomes of its slots. -/
theorem rebuilds_of_becomes {node : Node} {slots : Fields Slot}
    (h : Slots.Related phase.Becomes node.slots slots) :
    phase.Rebuilds node { node with slots } := by
  rw [becomes_eq] at h
  exact ⟨slots, h, rfl⟩

/-- A path that is spared is spared below each of its steps. -/
theorem Spares.below (h : phase.Spares tree (steps ++ path)) (hchild : tree.ChildAt steps child) :
    phase.Spares child path := by
  rintro front back ancestor rebuilt rfl hback hancestor hrebuilds
  refine h (steps ++ front) back ancestor rebuilt (List.append_assoc ..).symm hback ?_ hrebuilds
  rw [hchild.follow_append]
  exact hancestor

/-- A settled subtree stays where it is if the path to it is spared. -/
theorem follow_transform (h : phase.transform tree = .ok result)
    (hpart : tree.follow path = some part) (hsettled : phase.Settled part)
    (hspares : phase.Spares tree path) : result.follow path = some part := by
  induction tree using Node.induction_children generalizing result path with
  | step tree ih =>
    rcases Node.follow_cases hpart with ⟨rfl, rfl⟩ | ⟨steps, child, rest, rfl, hchild, hfollow⟩
    · have hsame : result = part := Except.ok.inj (h.symm.trans hsettled.transform)
      rw [hsame]
      rfl
    · obtain ⟨slots, hslots, hreplace⟩ := transform_eq_ok h
      have hunmatched : phase.Unmatched { tree with slots } :=
        hspares [] (steps ++ rest) tree _ rfl
          (List.append_ne_nil_of_left_ne_nil hchild.ne_nil rest) rfl (rebuilds_of_becomes hslots)
      have hresult : { tree with slots } = result :=
        Except.ok.inj ((replace_of_unmatched hunmatched).symm.trans hreplace)
      obtain ⟨other, hother, hbecomes⟩ := hchild.exists_related hslots
      rw [← hresult, hother.follow_append]
      exact ih child hchild.mem_children hbecomes hfollow (hspares.below hchild)

/-- A subtree that no rule matches, on a path through nodes that no rule matches once their children
have been rewritten, is the same subtree in the result, under the same path. So a tree that no rule
matches anywhere is left alone, and a phase without rules may spare itself the pass. -/
theorem apply_spares (phase : Phase) (tree : Node) :
    (∀ result path part, phase.apply tree = .ok result → tree.follow path = some part →
      phase.Settled part → phase.Spares tree path → result.follow path = some part) ∧
    (phase.Settled tree → phase.apply tree = .ok tree) ∧
    (phase.rules = [] → phase.apply tree = .ok tree ∧ phase.transform tree = .ok tree) := by
  refine ⟨fun result path part happly hpart hsettled hspares => ?_, fun h => h.apply,
    fun hrules => ?_⟩
  · rw [apply_eq_transform] at happly
    exact follow_transform happly hpart hsettled hspares
  · have hsettled : phase.Settled tree := by simp [Settled, hrules]
    exact ⟨hsettled.apply, hsettled.transform⟩

/-- Quotations give way to what they hold, and a block that starts with one is empty. -/
def unquoting : Phase where
  name := "quotes"
  rules :=
    [{ name := "unquote"
       pattern := { kind := .only "quote", slots := [("inner", .any (some "it"))] }
       action := .replace "it" },
      { name := "clear"
        pattern := { kind := .only "block", slots := [("head", .single { kind := .only "quote" })] }
        action := .edit { slots := [.remove "body"] } }]

/-- A block that starts with a quotation. -/
def quotedBlock : Node :=
  { kind := "block"
    slots :=
      [("head", .single
        { kind := "quote", slots := [("inner", .single { kind := "name", token := some "a" })] }),
       ("body", .sequence
        [{ kind := "name" },
         { kind := "list", slots := [("items", .sequence [{ kind := "name" }])] }])] }

/-- The block would be cleared, but once its children have been rewritten it does not start with a
quotation any more. So no rule matches it, and the list in it stays. -/
theorem apply_spares_quotedBlock :
    let path : Path := [.field "body", .index 1]
    let list : Node := { kind := "list", slots := [("items", .sequence [{ kind := "name" }])] }
    let result : Node :=
      { kind := "block"
        slots :=
          [("head", .single { kind := "name", token := some "a" }),
           ("body", .sequence [{ kind := "name" }, list])] }
    unquoting.apply quotedBlock = .ok result ∧ ¬ unquoting.Unmatched quotedBlock ∧
      unquoting.Settled list ∧ unquoting.Spares quotedBlock path ∧
      quotedBlock.follow path = some list ∧ result.follow path = some list := by
  intro path list result
  have happly : unquoting.apply quotedBlock = .ok result := rfl
  have hsettled : unquoting.Settled list := by decide
  have hspares : unquoting.Spares quotedBlock path := by
    rintro front back ancestor rebuilt hpath hback hancestor ⟨slots, hslots, rfl⟩
    rcases front with - | ⟨name, - | ⟨i, front⟩⟩
    · cases hancestor
      rw [← becomes_eq] at hslots
      have hslots' : result.slots = slots := Except.ok.inj (transformSlots_of_related hslots)
      rw [← hslots']
      decide
    · -- the name of a sequence alone leads to no node
      obtain ⟨rfl, -⟩ := List.cons.inj hpath
      cases hancestor
    · have hrest : [] = front ++ back := (List.cons.inj (List.cons.inj hpath).2).2
      exact absurd (List.append_eq_nil_iff.mp hrest.symm).2 hback
  have hmatched : ¬ unquoting.Unmatched quotedBlock := by decide
  have hlist : quotedBlock.follow path = some list := rfl
  exact ⟨happly, hmatched, hsettled, hspares, hlist,
    (apply_spares unquoting quotedBlock).1 result path list happly hlist hsettled hspares⟩

end Phase

end CanonicalTree
