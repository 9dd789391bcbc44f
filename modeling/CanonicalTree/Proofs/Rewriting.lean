import CanonicalTree.Proofs.Matching
import CanonicalTree.Rule.Phase

/-!
# What a phase keeps

A phase makes a tree out of parts of the tree that it is given: whole subtrees that a pattern kept,
leaves, and new nodes that have a kind and whose position, if any, is that of a node of the match.
Every property of nodes that allows for this (`Node.Stable`) passes from the nodes of a tree to the
nodes of the tree that a phase makes of it (`Phase.apply_everywhere`).
-/

namespace CanonicalTree

/-! ## Values after an edit -/

namespace Fields

variable {α : Type} {Q : α → Prop} {fields : Fields α}

/-- What holds of all values and of a new one holds of all values once it is stored. -/
theorem forall_insert {value : α} (key : String) (h : ∀ entry ∈ fields, Q entry.2)
    (hvalue : Q value) : ∀ entry ∈ insert fields key value, Q entry.2 := by
  induction fields with
  | nil =>
    intro entry hentry
    rw [List.mem_singleton.mp hentry]
    exact hvalue
  | cons first rest ih =>
    obtain ⟨hfirst, hrest⟩ := List.forall_mem_cons.mp h
    rw [insert]
    split
    · exact List.forall_mem_cons.mpr ⟨hvalue, hrest⟩
    · exact List.forall_mem_cons.mpr ⟨hfirst, ih hrest⟩

theorem forall_erase (key : String) (h : ∀ entry ∈ fields, Q entry.2) :
    ∀ entry ∈ erase fields key, Q entry.2 :=
  fun entry hentry => h entry (List.mem_of_mem_filter hentry)

theorem forall_rename (old new : String) (h : ∀ entry ∈ fields, Q entry.2) :
    ∀ entry ∈ rename fields old new, Q entry.2 := by
  intro entry hentry
  obtain ⟨source, hsource, rfl⟩ := List.mem_map.mp hentry
  have hvalue := h source hsource
  split
  · exact hvalue
  · exact hvalue

end Fields

/-- What holds of all values still does after a renaming that is not refused. -/
theorem BuildContext.forall_renameEntry {α : Type} {Q : α → Prop} {fields result : Fields α}
    {old new : String} (h : ∀ entry ∈ fields, Q entry.2)
    (hrename : renameEntry fields old new = .ok result) : ∀ entry ∈ result, Q entry.2 := by
  unfold renameEntry at hrename
  split at hrename
  · split at hrename
    · cases hrename
    · cases hrename
      exact Fields.forall_rename old new h
  · cases hrename
    exact h

/-! ## Properties of all nodes -/

/-- All nodes of the tree have the property. -/
def Node.Everywhere (P : Node → Prop) (tree : Node) : Prop :=
  ∀ part ∈ tree.descendants, P part

/-- All nodes in the slot and below have the property. -/
def Slot.Everywhere (P : Node → Prop) (slot : Slot) : Prop :=
  ∀ child ∈ slot.nodes, child.Everywhere P

/-- The position, if there is one, is that of a node with the property. -/
def Donated (P : Node → Prop) (position : Option Span) : Prop :=
  ∀ span, position = some span → ∃ donor, P donor ∧ donor.position = some span

/-- A property that does not tell a tree from what a phase makes of it: leaves have it, a node with
a kind has it if it takes its position from a node with it, and it does not look into the slots,
except that it may tell whether there are any. -/
structure Node.Stable (P : Node → Prop) : Prop where
  leaf : ∀ text, P (.leaf text)
  built : ∀ node : Node, node.kind ≠ "" → Donated P node.position → P node
  slots : ∀ (node : Node) (slots : Fields Slot), P node → (node.slots = [] → slots = []) →
    P { node with slots }

variable {P : Node → Prop}

/-- A property holds everywhere in a tree if it holds of the node and everywhere in its slots. -/
theorem Node.everywhere_iff {node : Node} :
    node.Everywhere P ↔ P node ∧ ∀ entry ∈ node.slots, entry.2.Everywhere P := by
  unfold Node.Everywhere
  rw [Node.forall_descendants]
  refine and_congr_right fun _ => ?_
  constructor
  · intro h entry hentry child hchild
    exact h child (Node.mem_children.mpr ⟨entry, hentry, hchild⟩)
  · intro h child hchild
    obtain ⟨entry, hentry, hchild⟩ := Node.mem_children.mp hchild
    exact h entry hentry child hchild

/-- What holds everywhere in a tree holds everywhere below each of its nodes. -/
theorem Node.Everywhere.of_mem_descendants {tree part : Node} (h : tree.Everywhere P)
    (hpart : part ∈ tree.descendants) : part.Everywhere P :=
  fun inner hinner => h inner (Node.mem_descendants_trans hpart hinner)

theorem Node.Everywhere.donated {tree : Node} (h : tree.Everywhere P) : Donated P tree.position :=
  fun _ hspan => ⟨tree, h tree tree.self_mem_descendants, hspan⟩

theorem Slot.everywhere_single {node : Node} (h : node.Everywhere P) :
    (Slot.single node).Everywhere P := by
  intro child hchild
  rw [List.mem_singleton.mp hchild]
  exact h

/-- What is stable holds everywhere in a leaf. -/
theorem Node.everywhere_leaf (hP : Node.Stable P) (text : String) :
    (Node.leaf text).Everywhere P :=
  Node.everywhere_iff.mpr ⟨hP.leaf text, by simp [Node.leaf]⟩

/-! ## Blueprints -/

namespace BuildContext

/-- What a blueprint can copy has the property: the nodes that were kept, and the node that gives
its position. -/
structure Supplies (context : BuildContext) (P : Node → Prop) : Prop where
  kept : ∀ entry ∈ context.captures, ∀ node ∈ entry.2.nodes, node.Everywhere P
  position : Donated P context.position

variable {context : BuildContext}

/-- A node that is asked for has the property everywhere. -/
theorem Supplies.node {name : String} {node : Node} (hcontext : context.Supplies P)
    (h : context.captures.node name = .ok node) : node.Everywhere P := by
  unfold Captures.node at h
  split at h
  · next found hget =>
    cases h
    exact hcontext.kept _ (Fields.mem_of_get? hget) node (List.mem_singleton.mpr rfl)
  · cases h
  · cases h

theorem Supplies.slot {name : String} {slot : Slot} (hcontext : context.Supplies P)
    (h : context.captures.slot name = .ok slot) : slot.Everywhere P := by
  unfold Captures.slot at h
  split at h
  · next found hget =>
    cases h
    exact hcontext.kept _ (Fields.mem_of_get? hget)
  · next found hget =>
    cases h
    exact hcontext.kept _ (Fields.mem_of_get? hget)
  · cases h
  · cases h

/-- A built kind is not empty. -/
theorem kindAfter_ne_empty {kind result : String} {source : Option TextSource}
    (h : context.kindAfter kind source = .ok result) : result ≠ "" := by
  -- the check is the last step, whichever way the text was found
  have hcheck : ∃ chosen : String,
      (if chosen.isEmpty then .error .emptyKind else .ok chosen : Except BuildFault String) =
        .ok result := by
    unfold kindAfter at h
    split at h
    · exact ⟨kind, h⟩
    · obtain ⟨chosen, -, h⟩ := bind_eq_ok_iff.mp h
      exact ⟨chosen, h⟩
  obtain ⟨chosen, hchosen⟩ := hcheck
  split at hchosen
  · cases hchosen
  · next hne =>
    cases hchosen
    intro hempty
    exact hne (by rw [hempty]; rfl)

/-- A built position was given by the matched node or by a captured one. -/
theorem positionAfter_donated {own result : Option Span} {source : SpanSource}
    (hcontext : context.Supplies P) (hown : Donated P own)
    (h : context.positionAfter own source = .ok result) : Donated P result := by
  cases source with
  | matched =>
    cases h
    exact hown
  | captured name =>
    obtain ⟨node, hnode, hresult⟩ := bind_eq_ok_iff.mp h
    cases pure_eq_ok_iff.mp hresult
    exact (hcontext.node hnode).donated
  | nowhere =>
    cases h
    intro span hspan
    cases hspan

mutual

/-- A blueprint gives a node all of whose nodes have the property, whatever node it starts from. -/
theorem build_everywhere (hP : Node.Stable P) (hcontext : context.Supplies P) :
    ∀ (blueprint : Blueprint) {base result : Node} {own : Option Span}, Donated P own →
      (∀ entry ∈ base.slots, entry.2.Everywhere P) →
        context.build base own blueprint = .ok result → result.Everywhere P
  | ⟨kind, token, position, properties, slots⟩, base, result, own, hown, hbase, h => by
    rw [build] at h
    obtain ⟨newKind, hkind, h⟩ := bind_eq_ok_iff.mp h
    obtain ⟨newToken, -, h⟩ := bind_eq_ok_iff.mp h
    obtain ⟨newPosition, hposition, h⟩ := bind_eq_ok_iff.mp h
    obtain ⟨newProperties, -, h⟩ := bind_eq_ok_iff.mp h
    obtain ⟨newSlots, hslots, hresult⟩ := bind_eq_ok_iff.mp h
    cases pure_eq_ok_iff.mp hresult
    refine Node.everywhere_iff.mpr ⟨hP.built _ ?_ ?_, ?_⟩
    · exact kindAfter_ne_empty hkind
    · exact positionAfter_donated hcontext hown hposition
    · exact editSlots_everywhere hP hcontext slots hbase hslots

/-- Edited slots have the property everywhere. -/
theorem editSlots_everywhere (hP : Node.Stable P) (hcontext : context.Supplies P) :
    ∀ (edits : List (Edit SlotSource)) {slots result : Fields Slot},
      (∀ entry ∈ slots, entry.2.Everywhere P) → context.editSlots slots edits = .ok result →
        ∀ entry ∈ result, entry.2.Everywhere P
  | [], slots, result, hslots, h => by
    rw [editSlots] at h
    cases h
    exact hslots
  | .set name source :: rest, slots, result, hslots, h => by
    rw [editSlots] at h
    obtain ⟨content, hcontent, h⟩ := bind_eq_ok_iff.mp h
    cases content with
    | none => exact editSlots_everywhere hP hcontext rest hslots h
    | some content =>
      have hnew := slot_everywhere hP hcontext source hcontent content rfl
      exact editSlots_everywhere hP hcontext rest (Fields.forall_insert name hslots hnew) h
  | .remove name :: rest, slots, result, hslots, h => by
    rw [editSlots] at h
    exact editSlots_everywhere hP hcontext rest (Fields.forall_erase name hslots) h
  | .rename old new :: rest, slots, result, hslots, h => by
    rw [editSlots] at h
    obtain ⟨renamed, hrenamed, h⟩ := bind_eq_ok_iff.mp h
    exact editSlots_everywhere hP hcontext rest (forall_renameEntry hslots hrenamed) h

theorem slot_everywhere (hP : Node.Stable P) (hcontext : context.Supplies P) :
    ∀ (source : SlotSource) {result : Option Slot}, context.slot source = .ok result →
      ∀ content, result = some content → content.Everywhere P
  | .captured name, result, h => by
    rw [slot] at h
    obtain ⟨kept, hkept, hresult⟩ := bind_eq_ok_iff.mp h
    cases pure_eq_ok_iff.mp hresult
    rintro content ⟨⟩
    exact hcontext.slot hkept
  | .capturedIfAny name, result, h => by
    rw [slot] at h
    split at h
    · obtain ⟨kept, hkept, hresult⟩ := bind_eq_ok_iff.mp h
      cases pure_eq_ok_iff.mp hresult
      rintro content ⟨⟩
      exact hcontext.slot hkept
    · cases h
      rintro content ⟨⟩
  | .build blueprint, result, h => by
    rw [slot] at h
    obtain ⟨node, hnode, hresult⟩ := bind_eq_ok_iff.mp h
    cases pure_eq_ok_iff.mp hresult
    rintro content ⟨⟩
    exact Slot.everywhere_single
      (build_everywhere hP hcontext blueprint hcontext.position (by simp) hnode)
  | .leaf source, result, h => by
    rw [slot] at h
    obtain ⟨text, -, hresult⟩ := bind_eq_ok_iff.mp h
    cases pure_eq_ok_iff.mp hresult
    rintro content ⟨⟩
    exact Slot.everywhere_single (Node.everywhere_leaf hP text)
  | .sequence parts, result, h => by
    rw [slot] at h
    obtain ⟨nodes, hnodes, hresult⟩ := bind_eq_ok_iff.mp h
    cases pure_eq_ok_iff.mp hresult
    rintro content ⟨⟩
    exact sequence_everywhere hP hcontext parts hnodes

/-- A built sequence has the property everywhere. -/
theorem sequence_everywhere (hP : Node.Stable P) (hcontext : context.Supplies P) :
    ∀ (parts : List SlotSource) {nodes : List Node}, context.sequence parts = .ok nodes →
      ∀ node ∈ nodes, node.Everywhere P
  | [], nodes, h => by
    rw [sequence] at h
    cases h
    simp
  | part :: rest, nodes, h => by
    rw [sequence] at h
    obtain ⟨content, hcontent, h⟩ := bind_eq_ok_iff.mp h
    obtain ⟨others, hothers, h⟩ := bind_eq_ok_iff.mp h
    have hrest := sequence_everywhere hP hcontext rest hothers
    cases content with
    | none =>
      cases pure_eq_ok_iff.mp h
      exact hrest
    | some content =>
      cases pure_eq_ok_iff.mp h
      intro node hnode
      rcases List.mem_append.mp hnode with hnode | hnode
      · exact slot_everywhere hP hcontext part hcontent content rfl node hnode
      · exact hrest node hnode

end

end BuildContext

/-! ## Phases -/

/-- What a match hands to a blueprint has the property if all nodes of the matched tree have it. -/
theorem BuildContext.supplies_ofMatch {node : Node} {captures : Captures} (h : node.Everywhere P)
    (hcaptures : captures.Within node) : (ofMatch node captures).Supplies P where
  kept entry hentry part hpart := h.of_mem_descendants (hcaptures entry hentry part hpart)
  position := h.donated

/-- What an action makes of a node has the property everywhere, if the node has. -/
theorem Action.run_everywhere (hP : Node.Stable P) {action : Action} {node result : Node}
    {captures : Captures} (hnode : node.Everywhere P) (hcaptures : captures.Within node)
    (h : action.run node captures = .ok result) : result.Everywhere P := by
  have hcontext := BuildContext.supplies_ofMatch hnode hcaptures
  cases action with
  | replace name => exact hcontext.node h
  | build blueprint =>
    exact BuildContext.build_everywhere hP hcontext blueprint hnode.donated (by simp) h
  | edit blueprint =>
    exact BuildContext.build_everywhere hP hcontext blueprint hnode.donated
      (Node.everywhere_iff.mp hnode).2 h

namespace Phase

variable {phase : Phase}

/-- The rule that is found matches. -/
theorem captures?_of_firstMatch? {node : Node} {rules : List Rule} {i index : Nat} {rule : Rule}
    {captures : Captures} (h : firstMatch? node i rules = some (index, rule, captures)) :
    rule.captures? node = some captures := by
  induction rules generalizing i with
  | nil => cases h
  | cons first rest ih =>
    rw [firstMatch?] at h
    split at h
    · next found hfound =>
      cases h
      exact hfound
    · exact ih h

/-- A replaced node has the property everywhere, if the node has. -/
theorem replace_everywhere (hP : Node.Stable P) {node result : Node} (hnode : node.Everywhere P)
    (h : phase.replace node = .ok result) : result.Everywhere P := by
  unfold replace at h
  split at h
  · cases h
    exact hnode
  · next index rule captures hmatch =>
    split at h
    · next replacement hrun =>
      cases h
      have hwithin := Pattern.captures?_within (captures?_of_firstMatch? hmatch)
      exact Action.run_everywhere hP hnode hwithin hrun
    · cases h

/-- One node becomes the other. -/
def Becomes (phase : Phase) (node result : Node) : Prop :=
  phase.transform node = .ok result

/-- A sequence that is transformed becomes what its nodes become. -/
theorem transformNodes_related {nodes results : List Node} {i : Nat}
    (h : phase.transformNodes i nodes = .ok results) :
    List.Forall₂ phase.Becomes nodes results := by
  induction nodes generalizing i results with
  | nil =>
    rw [transformNodes] at h
    cases h
    exact .nil
  | cons node rest ih =>
    rw [transformNodes] at h
    obtain ⟨first, hfirst, h⟩ := bind_eq_ok_iff.mp h
    obtain ⟨others, hothers, hresults⟩ := bind_eq_ok_iff.mp h
    cases pure_eq_ok_iff.mp hresults
    exact .cons (within_eq_ok_iff.mp hfirst) (ih hothers)

theorem transformSlot_related {slot result : Slot} (h : phase.transformSlot slot = .ok result) :
    slot.Related phase.Becomes result := by
  cases slot with
  | single node =>
    rw [transformSlot] at h
    obtain ⟨transformed, htransformed, hresult⟩ := bind_eq_ok_iff.mp h
    cases pure_eq_ok_iff.mp hresult
    exact htransformed
  | sequence nodes =>
    rw [transformSlot] at h
    obtain ⟨transformed, htransformed, hresult⟩ := bind_eq_ok_iff.mp h
    cases pure_eq_ok_iff.mp hresult
    exact transformNodes_related htransformed

theorem transformSlots_related {slots results : Fields Slot}
    (h : phase.transformSlots slots = .ok results) :
    Slots.Related phase.Becomes slots results := by
  induction slots generalizing results with
  | nil =>
    rw [transformSlots] at h
    cases h
    exact .nil
  | cons entry rest ih =>
    obtain ⟨name, slot⟩ := entry
    rw [transformSlots] at h
    obtain ⟨transformed, htransformed, h⟩ := bind_eq_ok_iff.mp h
    obtain ⟨others, hothers, hresults⟩ := bind_eq_ok_iff.mp h
    cases pure_eq_ok_iff.mp hresults
    exact .cons ⟨rfl, transformSlot_related (within_eq_ok_iff.mp htransformed)⟩ (ih hothers)

/-- A node is transformed by transforming its children in place and then replacing it once. -/
theorem transform_eq_ok {node result : Node} (h : phase.transform node = .ok result) :
    ∃ slots, Slots.Related phase.Becomes node.slots slots ∧
      phase.replace { node with slots } = .ok result := by
  obtain ⟨kind, token, position, properties, slots⟩ := node
  rw [transform] at h
  obtain ⟨transformed, htransformed, hreplace⟩ := bind_eq_ok_iff.mp h
  exact ⟨transformed, transformSlots_related htransformed, hreplace⟩

/-- A transformed tree has a stable property everywhere, if the tree has. -/
theorem transform_everywhere (hP : Node.Stable P) {tree result : Node} (htree : tree.Everywhere P)
    (h : phase.transform tree = .ok result) : result.Everywhere P := by
  induction tree using Node.induction_children generalizing result with
  | step node ih =>
    obtain ⟨slots, hslots, hreplace⟩ := transform_eq_ok h
    refine replace_everywhere hP (Node.forall_descendants.mpr ⟨?_, ?_⟩) hreplace
    · refine hP.slots node slots (htree node node.self_mem_descendants) fun hempty => ?_
      rw [hempty] at hslots
      cases hslots
      rfl
    · -- every new child comes from an old one, which has the property everywhere
      intro child hchild
      obtain ⟨old, hold, hbecomes⟩ :=
        exists_related_of_mem hslots.forall₂_nodes child hchild
      exact ih old hold (htree.of_mem_descendants (Node.mem_descendants_of_mem_children hold))
        hbecomes

/-- A stable property of all nodes of a tree is one of all nodes of the tree that a phase makes of
it. -/
theorem apply_everywhere (hP : Node.Stable P) {tree result : Node} (htree : tree.Everywhere P)
    (h : phase.apply tree = .ok result) : result.Everywhere P := by
  unfold apply at h
  split at h
  · cases h
    exact htree
  · exact transform_everywhere hP htree h

end Phase

end CanonicalTree
