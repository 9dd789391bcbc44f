import CanonicalTree.Proofs.Outcomes
import CanonicalTree.Rule.Build
import Mathlib.Logic.Relation

/-!
# Nested sequences

The parts of a sequence may be sequences themselves, to any depth. A nested sequence can be spliced:
it gives way to its own parts, in place. Splicing as long as there is anything to splice ends in
`SlotSource.flatten`, and no splice changes what is built, neither the nodes nor the fault
(`BuildContext.slot_sequence_flatten`).

The nodes of a sequence are what its parts contribute, one after the other (`Contributes`), and its
fault is that of the first part, in the order of the flat list, that cannot contribute.
-/

namespace CanonicalTree

open Relation (ReflTransGen)

namespace SlotSource

/-! ## Splicing -/

/-- The source is a sequence of parts. -/
def IsSequence (source : SlotSource) : Prop :=
  ∃ parts, source = .sequence parts

/-- One sequence among the parts gives way to its own parts. -/
inductive Splices : List SlotSource → List SlotSource → Prop
  | splice (before inner after : List SlotSource) :
    Splices (before ++ .sequence inner :: after) (before ++ (inner ++ after))

mutual

/-- The parts that take the place of a part. -/
def spliced : SlotSource → List SlotSource
  | .sequence parts => flatten parts
  | part => [part]

/-- The parts without nesting: in the place of a sequence stand its own parts, without nesting. -/
def flatten : List SlotSource → List SlotSource
  | [] => []
  | part :: rest => spliced part ++ flatten rest

end

variable {parts others : List SlotSource}

theorem spliced_of_not_isSequence {part : SlotSource} (h : ¬ part.IsSequence) :
    part.spliced = [part] := by
  cases part with
  | sequence parts => exact absurd ⟨parts, rfl⟩ h
  | _ => rfl

theorem flatten_append (parts others : List SlotSource) :
    flatten (parts ++ others) = flatten parts ++ flatten others := by
  induction parts with
  | nil => rfl
  | cons part rest ih => rw [List.cons_append, flatten, flatten, ih, List.append_assoc]

/-- Parts without nested sequences are flat. -/
theorem flatten_of_flat (h : ∀ part ∈ parts, ¬ part.IsSequence) : flatten parts = parts := by
  induction parts with
  | nil => rfl
  | cons part rest ih =>
    obtain ⟨hpart, hrest⟩ := List.forall_mem_cons.mp h
    rw [flatten, spliced_of_not_isSequence hpart, ih hrest, List.singleton_append]

/-- A splice leaves the flat list as it is. -/
theorem Splices.flatten_eq (h : Splices parts others) : flatten parts = flatten others := by
  cases h with
  | splice before inner after =>
    simp only [flatten_append, flatten, spliced]

theorem Splices.append_left (before : List SlotSource) (h : Splices parts others) :
    Splices (before ++ parts) (before ++ others) := by
  cases h with
  | splice first inner after =>
    rw [← List.append_assoc, ← List.append_assoc before first]
    exact .splice (before ++ first) inner after

theorem Splices.append_right (after : List SlotSource) (h : Splices parts others) :
    Splices (parts ++ after) (others ++ after) := by
  cases h with
  | splice before inner last =>
    simp only [List.append_assoc, List.cons_append]
    exact .splice before inner (last ++ after)

mutual

/-- A part is spliced one nested sequence after the other. -/
theorem reflTransGen_spliced : ∀ part : SlotSource, ReflTransGen Splices [part] part.spliced
  | .sequence parts => by
    have hstep : Splices [.sequence parts] parts := by
      have h := Splices.splice [] parts []
      rwa [List.append_nil] at h
    exact (reflTransGen_flatten parts).head hstep
  | .captured _ => .refl
  | .capturedIfAny _ => .refl
  | .build _ => .refl
  | .leaf _ => .refl

/-- The flat list is reached by splices. -/
theorem reflTransGen_flatten : ∀ parts : List SlotSource, ReflTransGen Splices parts (flatten parts)
  | [] => .refl
  | part :: rest => by
    have hfirst : ReflTransGen Splices ([part] ++ rest) (part.spliced ++ rest) :=
      (reflTransGen_spliced part).lift (· ++ rest) fun _ _ h => h.append_right rest
    have hrest : ReflTransGen Splices (part.spliced ++ rest) (part.spliced ++ flatten rest) :=
      (reflTransGen_flatten rest).lift (part.spliced ++ ·) fun _ _ h => h.append_left part.spliced
    exact hfirst.trans hrest

end

mutual

/-- A spliced part has no nested sequence left. -/
theorem not_isSequence_of_mem_spliced : ∀ part : SlotSource, ∀ other ∈ part.spliced,
    ¬ other.IsSequence
  | .sequence parts => by
    rw [spliced]
    exact not_isSequence_of_mem_flatten parts
  | .captured _ => by simp [spliced, IsSequence]
  | .capturedIfAny _ => by simp [spliced, IsSequence]
  | .build _ => by simp [spliced, IsSequence]
  | .leaf _ => by simp [spliced, IsSequence]

/-- Flattened parts have no nested sequence left. -/
theorem not_isSequence_of_mem_flatten : ∀ parts : List SlotSource, ∀ part ∈ flatten parts,
    ¬ part.IsSequence
  | [] => by simp [flatten]
  | part :: rest => by
    rw [flatten]
    exact List.forall_mem_append.mpr
      ⟨not_isSequence_of_mem_spliced part, not_isSequence_of_mem_flatten rest⟩

end

/-- Splices end in the flat list and nowhere else. -/
theorem reflTransGen_flat_iff :
    (ReflTransGen Splices parts others ∧ ∀ part ∈ others, ¬ part.IsSequence) ↔
      others = flatten parts := by
  constructor
  · rintro ⟨hsplices, hflat⟩
    rw [← flatten_of_flat hflat]
    -- the list at the end is flat, and every splice on the way keeps the flat list
    induction hsplices using ReflTransGen.head_induction_on with
    | refl => rfl
    | head hstep _ ih => rw [ih, hstep.flatten_eq]
  · rintro rfl
    exact ⟨reflTransGen_flatten parts, not_isSequence_of_mem_flatten parts⟩

end SlotSource

namespace BuildContext

variable {context : BuildContext}

/-! ## Splicing and building -/

/-- The first part contributes first, and then the others. -/
theorem sequence_cons (part : SlotSource) (rest : List SlotSource) :
    context.sequence (part :: rest) = (do
      let content ← context.slot part
      let nodes ← context.sequence rest
      pure (content.elim [] Slot.nodes ++ nodes)) := by
  rw [sequence]
  congr 1
  funext content
  cases content <;> rfl

/-- Parts in a row are built in two goes, and the second is not begun if the first one fails. -/
theorem sequence_append (parts others : List SlotSource) :
    context.sequence (parts ++ others) = (do
      let first ← context.sequence parts
      let second ← context.sequence others
      pure (first ++ second)) := by
  induction parts with
  | nil =>
    rw [List.nil_append, sequence]
    cases context.sequence others <;> rfl
  | cons part rest ih =>
    -- both sides take the part, the rest and the others in this order, so they fail alike
    rw [List.cons_append, sequence_cons, sequence_cons, ih]
    simp only [bind_assoc, pure_bind, List.append_assoc]

/-- A part that is a sequence contributes what its own parts do in its place. -/
theorem sequence_sequence_cons (inner after : List SlotSource) :
    context.sequence (.sequence inner :: after) = context.sequence (inner ++ after) := by
  rw [sequence_cons, sequence_append, slot]
  simp only [bind_assoc, pure_bind]
  rfl

/-- Splicing one nested sequence does not change what is built or what goes wrong. -/
theorem sequence_of_splices {parts others : List SlotSource} (h : SlotSource.Splices parts others) :
    context.sequence parts = context.sequence others := by
  cases h with
  | splice before inner after => rw [sequence_append, sequence_append, sequence_sequence_cons]

/-- However often parts are spliced, what is built stays the same. -/
theorem slot_of_reflTransGen_splices {parts others : List SlotSource}
    (h : ReflTransGen SlotSource.Splices parts others) :
    context.slot (.sequence parts) = context.slot (.sequence others) := by
  have hnodes : context.sequence parts = context.sequence others := by
    induction h with
    | refl => rfl
    | tail _ hstep ih => rw [ih, sequence_of_splices hstep]
  rw [slot, slot, hnodes]

/-! ## What the parts contribute -/

/-- The nodes that a part contributes to a sequence. -/
inductive Contributes (context : BuildContext) : SlotSource → List Node → Prop
  /-- A name contributes the node kept under it. -/
  | single {name : String} {node : Node} :
    Fields.get? context.captures name = some (.single node) →
      Contributes context (.captured name) [node]
  /-- A name contributes all nodes of the sequence kept under it. -/
  | sequence {name : String} {nodes : List Node} :
    Fields.get? context.captures name = some (.sequence nodes) →
      Contributes context (.captured name) nodes
  /-- A name that is bound contributes the same if it may be missing. -/
  | bound {name : String} {nodes : List Node} :
    Contributes context (.captured name) nodes → Contributes context (.capturedIfAny name) nodes
  /-- A missing name that may be missing contributes nothing. -/
  | missing {name : String} :
    Fields.get? context.captures name = none → Contributes context (.capturedIfAny name) []
  /-- A blueprint contributes the new node. -/
  | build {blueprint : Blueprint} {node : Node} :
    context.build { kind := "" } context.position blueprint = .ok node →
      Contributes context (.build blueprint) [node]
  /-- A text contributes a leaf. -/
  | leaf {source : TextSource} {text : String} :
    context.text source = .ok text → Contributes context (.leaf source) [.leaf text]
  /-- A sequence contributes what its parts do, one after the other. -/
  | parts {parts : List SlotSource} {contributions : List (List Node)} :
    List.Forall₂ (Contributes context) parts contributions →
      Contributes context (.sequence parts) contributions.flatten

/-- A captured name contributes the nodes that are kept under it. -/
theorem contributes_captured_iff {name : String} {nodes : List Node} :
    context.Contributes (.captured name) nodes ↔
      ∃ content, context.captures.slot name = .ok content ∧ content.nodes = nodes := by
  constructor
  · intro h
    cases h with
    | single hget => exact ⟨.single _, by rw [Captures.slot, hget], rfl⟩
    | sequence hget => exact ⟨.sequence nodes, by rw [Captures.slot, hget], rfl⟩
  · rintro ⟨content, hcontent, rfl⟩
    unfold Captures.slot at hcontent
    split at hcontent
    · next hget =>
      cases hcontent
      exact .single hget
    · next hget =>
      cases hcontent
      exact .sequence hget
    · cases hcontent
    · cases hcontent

/-- A name that may be missing contributes nothing if it is. -/
theorem contributes_capturedIfAny_iff {name : String} {nodes : List Node} :
    context.Contributes (.capturedIfAny name) nodes ↔
      if Fields.contains context.captures name then context.Contributes (.captured name) nodes
      else nodes = [] := by
  unfold Fields.contains
  cases hget : Fields.get? context.captures name with
  | none =>
    constructor
    · intro h
      cases h with
      | bound hbound => cases hbound <;> simp_all
      | missing _ => rfl
    · rintro rfl
      exact .missing hget
  | some value =>
    constructor
    · intro h
      cases h with
      | bound hbound => exact hbound
      | missing hnone => simp_all
    · exact .bound

/-- A nested sequence contributes what its parts do, in order. -/
theorem contributes_sequence_iff {parts : List SlotSource} {nodes : List Node} :
    context.Contributes (.sequence parts) nodes ↔
      ∃ contributions, List.Forall₂ context.Contributes parts contributions ∧
        contributions.flatten = nodes := by
  constructor
  · intro h
    cases h with
    | parts h => exact ⟨_, h, rfl⟩
  · rintro ⟨contributions, h, rfl⟩
    exact .parts h

mutual

/-- A part contributes the nodes of the content that it gives. -/
theorem contributes_iff : ∀ {part : SlotSource} {nodes : List Node},
    context.Contributes part nodes ↔
      ∃ content, context.slot part = .ok content ∧ content.elim [] Slot.nodes = nodes
  | .captured name, nodes => by
    rw [contributes_captured_iff, slot, exists_bind_pure_eq_ok_iff]
    rfl
  | .capturedIfAny name, nodes => by
    rw [contributes_capturedIfAny_iff, slot]
    split
    · rw [contributes_captured_iff, exists_bind_pure_eq_ok_iff]
      rfl
    · simp [eq_comm]
  | .build blueprint, nodes => by
    rw [slot, exists_bind_pure_eq_ok_iff]
    constructor
    · intro h
      cases h with
      | build hbuild => exact ⟨_, hbuild, rfl⟩
    · rintro ⟨node, hnode, rfl⟩
      exact .build hnode
  | .leaf source, nodes => by
    rw [slot, exists_bind_pure_eq_ok_iff]
    constructor
    · intro h
      cases h with
      | leaf htext => exact ⟨_, htext, rfl⟩
    · rintro ⟨text, htext, rfl⟩
      exact .leaf htext
  | .sequence parts, nodes => by
    rw [contributes_sequence_iff, slot, exists_bind_pure_eq_ok_iff]
    constructor
    · rintro ⟨contributions, hparts, rfl⟩
      exact ⟨_, sequence_eq_ok_iff.mpr ⟨contributions, hparts, rfl⟩, rfl⟩
    · rintro ⟨built, hbuilt, rfl⟩
      exact sequence_eq_ok_iff.mp hbuilt

/-- The nodes of a sequence are what its parts contribute. -/
theorem sequence_eq_ok_iff : ∀ {parts : List SlotSource} {nodes : List Node},
    context.sequence parts = .ok nodes ↔
      ∃ contributions, List.Forall₂ context.Contributes parts contributions ∧
        contributions.flatten = nodes
  | [], nodes => by
    simp [sequence]
  | part :: rest, nodes => by
    rw [sequence_cons, bind_eq_ok_iff]
    simp only [bind_eq_ok_iff, pure_eq_ok_iff, sequence_eq_ok_iff, List.forall₂_cons_left_iff]
    constructor
    · rintro ⟨content, hcontent, _, ⟨contributions, hrest, rfl⟩, rfl⟩
      exact ⟨_, ⟨_, contributions, contributes_iff.mpr ⟨content, hcontent, rfl⟩, hrest, rfl⟩, rfl⟩
    · rintro ⟨_, ⟨first, contributions, hfirst, hrest, rfl⟩, rfl⟩
      obtain ⟨content, hcontent, rfl⟩ := contributes_iff.mp hfirst
      exact ⟨content, hcontent, _, ⟨contributions, hrest, rfl⟩, rfl⟩

end

/-- A sequence can be built exactly if every part contributes, and holds their contributions in
order. -/
theorem slot_sequence_eq_ok_iff {parts : List SlotSource} {content : Option Slot} :
    context.slot (.sequence parts) = .ok content ↔
      ∃ contributions, List.Forall₂ context.Contributes parts contributions ∧
        content = some (.sequence contributions.flatten) := by
  rw [slot, bind_eq_ok_iff]
  simp only [pure_eq_ok_iff, sequence_eq_ok_iff]
  constructor
  · rintro ⟨_, ⟨contributions, hparts, rfl⟩, rfl⟩
    exact ⟨contributions, hparts, rfl⟩
  · rintro ⟨contributions, hparts, rfl⟩
    exact ⟨_, ⟨contributions, hparts, rfl⟩, rfl⟩

/-- The fault of a sequence is that of the first part that has one. -/
theorem sequence_eq_error_iff {parts : List SlotSource} {fault : BuildFault} :
    context.sequence parts = .error fault ↔
      ∃ before part after, parts = before ++ part :: after ∧
        (∀ earlier ∈ before, ∃ nodes, context.Contributes earlier nodes) ∧
        context.slot part = .error fault := by
  induction parts with
  | nil => simp [sequence]
  | cons part rest ih =>
    rw [sequence_cons, bind_eq_error_iff]
    simp only [bind_eq_error_iff, ih]
    constructor
    · rintro (hfault | ⟨content, hcontent, hrest | ⟨_, -, h⟩⟩)
      · exact ⟨[], part, rest, rfl, by simp, hfault⟩
      · obtain ⟨before, failing, after, rfl, hbefore, hfault⟩ := hrest
        have hpart := contributes_iff.mpr ⟨content, hcontent, rfl⟩
        exact ⟨part :: before, failing, after, rfl,
          List.forall_mem_cons.mpr ⟨⟨_, hpart⟩, hbefore⟩, hfault⟩
      · cases h
    · rintro ⟨before, failing, after, hsplit, hbefore, hfault⟩
      cases before with
      | nil =>
        obtain ⟨rfl, rfl⟩ := List.cons.inj hsplit
        exact Or.inl hfault
      | cons first before =>
        obtain ⟨rfl, rfl⟩ := List.cons.inj hsplit
        obtain ⟨⟨nodes, hfirst⟩, hbefore⟩ := List.forall_mem_cons.mp hbefore
        obtain ⟨content, hcontent, -⟩ := contributes_iff.mp hfirst
        exact Or.inr ⟨content, hcontent, Or.inl ⟨before, failing, after, rfl, hbefore, hfault⟩⟩

theorem slot_sequence_eq_error_iff {parts : List SlotSource} {fault : BuildFault} :
    context.slot (.sequence parts) = .error fault ↔ context.sequence parts = .error fault := by
  rw [slot, bind_eq_error_iff]
  refine or_iff_left ?_
  rintro ⟨_, -, h⟩
  cases h

/-- A sequence gives what its parts give without nesting, and these are the parts in which splicing
ends. If it gives content, then a sequence of the nodes that the parts contribute, in order;
otherwise its fault is that of the first part, in the list without nesting, that has one. -/
theorem slot_sequence_flatten (context : BuildContext) (parts : List SlotSource) :
    (context.slot (.sequence parts) = context.slot (.sequence (SlotSource.flatten parts)) ∧
      ∀ others, (ReflTransGen SlotSource.Splices parts others ∧
        ∀ part ∈ others, ¬ part.IsSequence) ↔ others = SlotSource.flatten parts) ∧
    (∀ content, context.slot (.sequence parts) = .ok content ↔
      ∃ contributions, List.Forall₂ context.Contributes parts contributions ∧
        content = some (.sequence contributions.flatten)) ∧
    ∀ fault, context.slot (.sequence parts) = .error fault ↔
      ∃ before part after, SlotSource.flatten parts = before ++ part :: after ∧
        (∀ earlier ∈ before, ∃ nodes, context.Contributes earlier nodes) ∧
        context.slot part = .error fault := by
  have hflat : context.slot (.sequence parts) =
      context.slot (.sequence (SlotSource.flatten parts)) :=
    slot_of_reflTransGen_splices (SlotSource.reflTransGen_flatten parts)
  refine ⟨⟨hflat, fun others => SlotSource.reflTransGen_flat_iff⟩,
    fun content => slot_sequence_eq_ok_iff, fun fault => ?_⟩
  rw [hflat, slot_sequence_eq_error_iff, sequence_eq_error_iff]

/-- An unbound name is passed over if it may be missing; the next one is a fault, nested or not. -/
example : slot ⟨"call", none, none, []⟩
    (.sequence [.capturedIfAny "type", .sequence [.sequence [], .captured "name"],
      .captured "items"]) = .error (.unbound "name") := rfl

end BuildContext

end CanonicalTree
