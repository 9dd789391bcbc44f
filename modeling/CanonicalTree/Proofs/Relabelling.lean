import CanonicalTree.Proofs.Edits
import CanonicalTree.Proofs.Meaning
import CanonicalTree.Proofs.Resolution
import CanonicalTree.Rule.Phase

/-!
# Positions are only compared

Rules cannot look into a position: a pattern compares the positions of nodes that are kept under one
name, and a blueprint hands positions on. So a phase commutes with every injective change of the
positions of a tree, down to the failures that it reports (`Phase.apply_mapSpans`).
-/

namespace CanonicalTree

/-! ## Sameness -/

namespace Node

variable {f : Span → Span}

@[simp] theorem token_mapSpans (node : Node) : (node.mapSpans f).token = node.token := by
  cases node
  rfl

@[simp] theorem properties_mapSpans (node : Node) :
    (node.mapSpans f).properties = node.properties := by
  cases node
  rfl

theorem mapSpansInSlots_eq (slots : Fields Slot) :
    mapSpansInSlots f slots = Fields.mapValues (Slot.mapSpans f) slots := by
  induction slots with
  | nil => rfl
  | cons entry rest ih =>
    rw [mapSpansInSlots, ih]
    rfl

theorem slots_mapSpans (node : Node) :
    (node.mapSpans f).slots = Fields.mapValues (Slot.mapSpans f) node.slots := by
  cases node
  exact mapSpansInSlots_eq _

theorem nodes_mapSpans (slot : Slot) : (slot.mapSpans f).nodes = mapSpansInNodes f slot.nodes := by
  cases slot <;> rfl

/-- With other positions the same slots are found, their nodes with other positions. -/
theorem slot?_mapSpans (node : Node) (name : String) :
    (node.mapSpans f).slot? name = (node.slot? name).map (Slot.mapSpans f) := by
  unfold slot?
  rw [slots_mapSpans, Fields.get?_mapValues]

/-- Positions are no properties. -/
theorem property?_mapSpans (node : Node) (key : String) :
    (node.mapSpans f).property? key = node.property? key := by
  unfold property?
  rw [properties_mapSpans]

mutual

/-- An injective change of positions does not make different nodes the same. -/
theorem same_mapSpans (hf : Function.Injective f) : ∀ node other : Node,
    (node.mapSpans f).same (other.mapSpans f) = node.same other
  | ⟨kind, token, position, properties, slots⟩, other => by
    have hposition : (position.map f == other.position.map f) = (position == other.position) := by
      rw [Bool.eq_iff_iff, beq_iff_eq, beq_iff_eq]
      exact (Option.map_injective hf).eq_iff
    have hlength : (mapSpansInSlots f slots).length = slots.length := by
      rw [mapSpansInSlots_eq, Fields.mapValues, List.length_map]
    have hlength' : (other.mapSpans f).slots.length = other.slots.length := by
      rw [slots_mapSpans, Fields.mapValues, List.length_map]
    rw [mapSpans, same, same, kind_mapSpans, token_mapSpans, position_mapSpans, hposition,
      properties_mapSpans, hlength, hlength', slots_mapSpans, ← mapSpansInSlots_eq,
      sameSlots_mapSpans hf slots other.slots]

theorem sameSlots_mapSpans (hf : Function.Injective f) : ∀ slots others : List (String × Slot),
    sameSlots (mapSpansInSlots f slots) (mapSpansInSlots f others) = sameSlots slots others
  | [], others => by rw [mapSpansInSlots, sameSlots, sameSlots]
  | (name, slot) :: rest, others => by
    rw [mapSpansInSlots, sameSlots, sameSlots, sameSlots_mapSpans hf rest others,
      mapSpansInSlots_eq others, Fields.get?_mapValues]
    congr 1
    cases Fields.get? others name with
    | none => rfl
    | some other => exact sameSlot_mapSpans hf slot other

theorem sameSlot_mapSpans (hf : Function.Injective f) : ∀ slot other : Slot,
    (slot.mapSpans f).same (other.mapSpans f) = slot.same other
  | .single node, .single other => by
    rw [Slot.mapSpans, Slot.mapSpans, Slot.same, Slot.same, same_mapSpans hf node other]
  | .sequence nodes, .sequence others => by
    rw [Slot.mapSpans, Slot.mapSpans, Slot.same, Slot.same, sameNodes_mapSpans hf nodes others]
  | .single _, .sequence _ => by simp [Slot.mapSpans, Slot.same]
  | .sequence _, .single _ => by simp [Slot.mapSpans, Slot.same]

theorem sameNodes_mapSpans (hf : Function.Injective f) : ∀ nodes others : List Node,
    sameNodes (mapSpansInNodes f nodes) (mapSpansInNodes f others) = sameNodes nodes others
  | [], [] => by rw [mapSpansInNodes]
  | [], _ :: _ => by simp [mapSpansInNodes, sameNodes]
  | _ :: _, [] => by simp [mapSpansInNodes, sameNodes]
  | node :: rest, other :: others => by
    rw [mapSpansInNodes, mapSpansInNodes, sameNodes, sameNodes, same_mapSpans hf node other,
      sameNodes_mapSpans hf rest others]

end

end Node

/-! ## Matching -/

variable {f : Span → Span}

/-- The kept value with `f` applied to the position of every node. -/
def Capture.mapSpans (f : Span → Span) : Capture → Capture
  | .single node => .single (node.mapSpans f)
  | .sequence nodes => .sequence (Node.mapSpansInNodes f nodes)
  | .scalar value => .scalar value

/-- The kept values with `f` applied to the position of every node. -/
def Captures.mapSpans (f : Span → Span) (captures : Captures) : Captures :=
  Fields.mapValues (Capture.mapSpans f) captures

/-- Captures stay the same or different when positions change one-to-one. -/
theorem Capture.same_mapSpans (hf : Function.Injective f) (value other : Capture) :
    (value.mapSpans f).same (other.mapSpans f) = value.same other := by
  match value, other with
  | .single node, .single other => exact node.same_mapSpans hf other
  | .sequence nodes, .sequence others => exact Node.sameNodes_mapSpans hf nodes others
  | .scalar _, .scalar _ => rfl
  | .single _, .sequence _ | .single _, .scalar _ => rfl
  | .sequence _, .single _ | .sequence _, .scalar _ => rfl
  | .scalar _, .single _ | .scalar _, .sequence _ => rfl

/-- Positions can be changed before a slot is captured or after it. -/
theorem Capture.mapSpans_ofSlot (slot : Slot) :
    (Capture.ofSlot slot).mapSpans f = .ofSlot (slot.mapSpans f) := by
  cases slot <;> rfl

/-- Changing the positions of what has been kept changes those of what is kept afterwards, and
nothing else about the search. -/
def Commutes (f : Span → Span) (search changed : Captures → Option Captures) : Prop :=
  ∀ captures : Captures,
    changed (captures.mapSpans f) = (search captures).map (Captures.mapSpans f)

namespace Commutes

theorem skip : Commutes f some some :=
  fun _ => rfl

theorem refuse : Commutes f (fun _ => none) (fun _ => none) :=
  fun _ => rfl

/-- Keeping a value does not mind positions, as long as different ones stay different. -/
theorem keep (hf : Function.Injective f) (name : String) (value : Capture) :
    Commutes f (·.keep name value) (·.keep name (value.mapSpans f)) := by
  intro captures
  have hget : Fields.get? (captures.mapSpans f) name =
      (Fields.get? captures name).map (Capture.mapSpans f) := Fields.get?_mapValues name
  simp only [Captures.keep, hget]
  split
  · rfl
  · cases Fields.get? captures name with
    | none => simp [Captures.mapSpans, Fields.mapValues]
    | some known =>
      simp only [Option.map_some, Capture.same_mapSpans hf]
      split <;> rfl

theorem keepAs (hf : Function.Injective f) (name : Option String) (value : Capture) :
    Commutes f (·.keepAs name value) (·.keepAs name (value.mapSpans f)) := by
  cases name with
  | none => exact skip
  | some name => exact keep hf name value

theorem bind {first first' second second' : Captures → Option Captures}
    (hfirst : Commutes f first first') (hsecond : Commutes f second second') :
    Commutes f (fun captures => (first captures).bind second)
      (fun captures => (first' captures).bind second') := by
  intro captures
  simp only [hfirst captures]
  cases first captures with
  | none => rfl
  | some next => exact hsecond next

theorem foldlM {α : Type} {search changed : α → Captures → Option Captures} {items : List α}
    (h : ∀ item ∈ items, Commutes f (search item) (changed item)) :
    Commutes f (fun captures => items.foldlM (fun captures item => search item captures) captures)
      (fun captures => items.foldlM (fun captures item => changed item captures) captures) := by
  induction items with
  | nil => exact skip
  | cons item rest ih =>
    obtain ⟨hitem, hrest⟩ := List.forall_mem_cons.mp h
    simp only [List.foldlM_cons]
    exact hitem.bind (ih hrest)

end Commutes

/-- A clause for the token does not mind positions. -/
theorem TokenClause.commutes (hf : Function.Injective f) (clause : TokenClause)
    (token : Option String) : Commutes f (clause.match? token) (clause.match? token) := by
  intro captures
  unfold TokenClause.match?
  split
  · rfl
  · rfl
  · rfl
  · split <;> rfl
  · next name text => exact Commutes.keep hf name (.scalar (.str text)) captures
  · rfl

theorem PropertyClause.commutes (hf : Function.Injective f) (clause : PropertyClause)
    (value : Option Scalar) : Commutes f (clause.match? value) (clause.match? value) := by
  intro captures
  unfold PropertyClause.match?
  split
  · rfl
  · rfl
  · split <;> rfl
  · next name actual => exact Commutes.keep hf name (.scalar actual) captures
  · rfl

/-- A clause for a slot does not mind positions if its patterns do not. -/
theorem SlotClause.commutes (hf : Function.Injective f) {clause : SlotClause} (slot : Option Slot)
    (h : ∀ inner ∈ clause.pattern?, ∀ node : Node,
      Commutes f (inner.match? node) (inner.match? (node.mapSpans f))) :
    Commutes f (clause.match? slot) (clause.match? (slot.map (Slot.mapSpans f))) := by
  intro captures
  match clause, slot with
  | .absent, none | .optional _, none => simp [match?]
  | .absent, some (.single _) | .absent, some (.sequence _) => simp [match?, Slot.mapSpans]
  | .single _, none | .sequence none _, none | .sequence (some _) _, none | .any _, none =>
    simp [match?]
  | .single _, some (.sequence _) | .optional _, some (.sequence _) => simp [match?, Slot.mapSpans]
  | .sequence none _, some (.single _) | .sequence (some _) _, some (.single _) =>
    simp [match?, Slot.mapSpans]
  | .single pattern, some (.single child) | .optional pattern, some (.single child) =>
    rw [Option.map_some, Slot.mapSpans, match?, match?]
    exact h pattern rfl child captures
  | .sequence none bind, some (.sequence nodes) =>
    rw [Option.map_some, Slot.mapSpans, match?, match?]
    exact Commutes.keepAs hf bind (.sequence nodes) captures
  | .any bind, some slot =>
    rw [Option.map_some, match?, match?, ← Capture.mapSpans_ofSlot]
    exact Commutes.keepAs hf bind (.ofSlot slot) captures
  | .sequence (some pattern) bind, some (.sequence nodes) =>
    have hnodes := Commutes.foldlM (fun node (_ : node ∈ nodes) => h pattern rfl node) captures
    have hlist := Node.mapSpansInNodes_eq f nodes
    beta_reduce at hnodes
    rw [Option.map_some, Slot.mapSpans, match?, match?, hlist, List.foldlM_map, hnodes, ← hlist]
    cases nodes.foldlM (fun captures node => pattern.match? node captures) captures with
    | none => rfl
    | some next => exact Commutes.keepAs hf bind (.sequence nodes) next

/-- Matching a pattern does not mind positions. -/
theorem Pattern.commutes (hf : Function.Injective f) (pattern : Pattern) (node : Node) :
    Commutes f (pattern.match? node) (pattern.match? (node.mapSpans f)) := by
  induction pattern using induction_clauses generalizing node with
  | step pattern ih =>
    have htoken := pattern.token.commutes hf node.token
    have hproperties := Commutes.foldlM fun clause (_ : clause ∈ pattern.properties) =>
      clause.2.commutes hf (node.property? clause.1)
    have hslots := Commutes.foldlM fun clause (hclause : clause ∈ pattern.slots) =>
      SlotClause.commutes hf (node.slot? clause.1) (ih clause hclause)
    have hnode := Commutes.keepAs hf pattern.bind (.single node)
    have hclauses := htoken.bind (hproperties.bind (hslots.bind hnode))
    obtain ⟨kind, token, properties, slots, bind⟩ := pattern
    intro captures
    rw [match?, match?, Node.kind_mapSpans, Node.token_mapSpans]
    split
    · simp only [matchProperties?, Node.property?_mapSpans, matchSlots?_eq, Node.slot?_mapSpans]
      exact hclauses captures
    · rfl

/-- The nodes that a rule matches can be told without their positions, as long as equal positions
stay equal and different ones different. -/
theorem Rule.captures?_mapSpans (hf : Function.Injective f) (rule : Rule) (node : Node) :
    rule.captures? (node.mapSpans f) = (rule.captures? node).map (Captures.mapSpans f) :=
  rule.pattern.commutes hf node []

/-! ## Building -/

namespace Captures

variable (captures : Captures) (name : String)

theorem get?_mapSpans :
    Fields.get? (captures.mapSpans f) name =
      (Fields.get? captures name).map (Capture.mapSpans f) :=
  Fields.get?_mapValues name

/-- A node that is asked for comes with other positions. -/
theorem node_mapSpans :
    (captures.mapSpans f).node name = (captures.node name).map (Node.mapSpans f) := by
  unfold Captures.node
  rw [get?_mapSpans]
  match Fields.get? captures name with
  | none | some (.single _) | some (.sequence _) | some (.scalar _) => rfl

theorem slot_mapSpans :
    (captures.mapSpans f).slot name = (captures.slot name).map (Slot.mapSpans f) := by
  unfold Captures.slot
  rw [get?_mapSpans]
  match Fields.get? captures name with
  | none | some (.single _) | some (.sequence _) | some (.scalar _) => rfl

/-- Scalars have no positions. -/
theorem scalar_mapSpans : (captures.mapSpans f).scalar name = captures.scalar name := by
  unfold Captures.scalar
  rw [get?_mapSpans]
  match Fields.get? captures name with
  | none | some (.single _) | some (.sequence _) | some (.scalar _) => rfl

theorem text_mapSpans : (captures.mapSpans f).text name = captures.text name := by
  unfold Captures.text
  rw [scalar_mapSpans]

end Captures

namespace BuildContext

/-- The context with `f` applied to all its positions. -/
def mapSpans (f : Span → Span) (context : BuildContext) : BuildContext :=
  { context with
    position := context.position.map f
    captures := context.captures.mapSpans f }

variable (context : BuildContext)

theorem text_mapSpans (source : TextSource) :
    (context.mapSpans f).text source = context.text source := by
  cases source with
  | captured name => exact context.captures.text_mapSpans name
  | renamed name old new =>
    simp only [BuildContext.text, mapSpans, Captures.text_mapSpans]
  | _ => rfl

theorem scalar_mapSpans (source : ScalarSource) :
    (context.mapSpans f).scalar source = context.scalar source := by
  cases source with
  | captured name => exact context.captures.scalar_mapSpans name
  | _ => rfl

theorem kindAfter_mapSpans (kind : String) (source : Option TextSource) :
    (context.mapSpans f).kindAfter kind source = context.kindAfter kind source := by
  simp only [kindAfter, text_mapSpans]

theorem tokenAfter_mapSpans (token : Option String) (change : TokenChange) :
    (context.mapSpans f).tokenAfter token change = context.tokenAfter token change := by
  simp only [tokenAfter, text_mapSpans]

/-- Edits of properties do not depend on positions. -/
theorem editProperty_mapSpans : (context.mapSpans f).editProperty = context.editProperty := by
  funext properties edit
  simp only [editProperty, scalar_mapSpans]

/-- A built position changes with the others. -/
theorem positionAfter_mapSpans (own : Option Span) (source : SpanSource) :
    (context.mapSpans f).positionAfter (own.map f) source =
      (context.positionAfter own source).map (Option.map f) := by
  cases source with
  | matched => rfl
  | nowhere => rfl
  | captured name =>
    have hnode : (context.mapSpans f).captures.node name =
        (context.captures.node name).map (Node.mapSpans f) := context.captures.node_mapSpans name
    simp only [positionAfter, hnode]
    exact map_bind_eq fun node => by rw [Node.position_mapSpans]; rfl

mutual

/-- A blueprint hands positions on without looking at them. -/
theorem build_mapSpans : ∀ (blueprint : Blueprint) (base : Node) (own : Option Span),
    (context.mapSpans f).build (base.mapSpans f) (own.map f) blueprint =
      (context.build base own blueprint).map (Node.mapSpans f)
  | ⟨kind, token, position, properties, slots⟩, base, own => by
    rw [build, build, Node.kind_mapSpans, Node.token_mapSpans, Node.properties_mapSpans,
      Node.slots_mapSpans, kindAfter_mapSpans, tokenAfter_mapSpans, positionAfter_mapSpans,
      editProperty_mapSpans, editSlots_mapSpans slots base.slots]
    refine bind_map_eq fun kind => bind_map_eq fun token => map_bind_eq fun position => ?_
    refine bind_map_eq fun properties => map_bind_eq fun slots => ?_
    rw [← Node.mapSpansInSlots_eq]
    rfl

/-- Edited slots hold nodes with other positions. -/
theorem editSlots_mapSpans : ∀ (edits : List (Edit SlotSource)) (slots : Fields Slot),
    (context.mapSpans f).editSlots (Fields.mapValues (Slot.mapSpans f) slots) edits =
      (context.editSlots slots edits).map (Fields.mapValues (Slot.mapSpans f))
  | [], slots => by
    rw [editSlots, editSlots]
    rfl
  | .set name source :: rest, slots => by
    rw [editSlots, editSlots, slot_mapSpans source]
    refine map_bind_eq fun content => ?_
    cases content with
    | none => exact editSlots_mapSpans rest slots
    | some content =>
      show (context.mapSpans f).editSlots (Fields.insert _ name (content.mapSpans f)) rest = _
      rw [Fields.insert_mapValues, editSlots_mapSpans rest]
  | .remove name :: rest, slots => by
    rw [editSlots, editSlots, Fields.erase_mapValues, editSlots_mapSpans rest]
  | .rename old new :: rest, slots => by
    rw [editSlots, editSlots, renameEntry_mapValues]
    exact map_bind_eq fun renamed => editSlots_mapSpans rest renamed

theorem slot_mapSpans : ∀ source : SlotSource,
    (context.mapSpans f).slot source = (context.slot source).map (Option.map (Slot.mapSpans f))
  | .captured name => by
    have hslot : (context.mapSpans f).captures.slot name =
        (context.captures.slot name).map (Slot.mapSpans f) := context.captures.slot_mapSpans name
    rw [slot, slot, hslot]
    exact map_bind_eq fun _ => rfl
  | .capturedIfAny name => by
    have hslot : (context.mapSpans f).captures.slot name =
        (context.captures.slot name).map (Slot.mapSpans f) := context.captures.slot_mapSpans name
    have hcontains : Fields.contains (context.mapSpans f).captures name =
        Fields.contains context.captures name := Fields.contains_mapValues name
    rw [slot, slot, hslot, hcontains]
    split
    · exact map_bind_eq fun _ => rfl
    · rfl
  | .build blueprint => by
    have hbuild :
        (context.mapSpans f).build { kind := "" } (context.mapSpans f).position blueprint =
          (context.build { kind := "" } context.position blueprint).map (Node.mapSpans f) :=
      build_mapSpans blueprint { kind := "" } context.position
    rw [slot, slot, hbuild]
    exact map_bind_eq fun _ => rfl
  | .leaf source => by
    rw [slot, slot, text_mapSpans]
    exact bind_map_eq fun _ => rfl
  | .sequence parts => by
    rw [slot, slot, sequence_mapSpans parts]
    exact map_bind_eq fun _ => rfl

theorem sequence_mapSpans : ∀ parts : List SlotSource,
    (context.mapSpans f).sequence parts =
      (context.sequence parts).map (Node.mapSpansInNodes f)
  | [] => by
    rw [sequence, sequence]
    rfl
  | part :: rest => by
    rw [sequence, sequence, slot_mapSpans part, sequence_mapSpans rest]
    refine map_bind_eq fun content => map_bind_eq fun nodes => ?_
    cases content with
    | none => rfl
    | some content =>
      have hnodes : (content.mapSpans f).nodes ++ Node.mapSpansInNodes f nodes =
          Node.mapSpansInNodes f (content.nodes ++ nodes) := by
        simp only [Node.nodes_mapSpans, Node.mapSpansInNodes_eq, List.map_append]
      exact congrArg Except.ok hnodes

end

end BuildContext

/-! ## Phases -/

/-- An action makes the same of a node, with other positions. -/
theorem Action.run_mapSpans (action : Action) (node : Node) (captures : Captures) :
    action.run (node.mapSpans f) (captures.mapSpans f) =
      (action.run node captures).map (Node.mapSpans f) := by
  have hcontext : BuildContext.ofMatch (node.mapSpans f) (captures.mapSpans f) =
      (BuildContext.ofMatch node captures).mapSpans f := by
    cases node
    rfl
  cases action with
  | replace name => exact captures.node_mapSpans name
  | build blueprint =>
    simp only [Action.run, hcontext]
    exact BuildContext.build_mapSpans _ blueprint { kind := "" } node.position
  | edit blueprint =>
    simp only [Action.run, hcontext, Node.position_mapSpans]
    exact BuildContext.build_mapSpans _ blueprint node node.position

namespace Phase

/-- The same rule matches first, and captures nodes with other positions. -/
theorem firstMatch?_mapSpans (hf : Function.Injective f) (node : Node) (i : Nat)
    (rules : List Rule) :
    firstMatch? (node.mapSpans f) i rules =
      (firstMatch? node i rules).map fun found =>
        (found.1, found.2.1, found.2.2.mapSpans f) := by
  induction rules generalizing i with
  | nil => rfl
  | cons rule rest ih =>
    rw [firstMatch?, firstMatch?, rule.captures?_mapSpans hf]
    cases rule.captures? node with
    | none => exact ih (i + 1)
    | some captures => rfl

variable (phase : Phase)

/-- A node is replaced by the same, with other positions. -/
theorem replace_mapSpans (hf : Function.Injective f) (node : Node) :
    phase.replace (node.mapSpans f) = (phase.replace node).map (Node.mapSpans f) := by
  unfold replace
  rw [firstMatch?_mapSpans hf]
  match firstMatch? node 0 phase.rules with
  | none => rfl
  | some (index, rule, captures) =>
    simp only [Option.map_some, Action.run_mapSpans]
    cases rule.action.run node captures <;> rfl

mutual

/-- A phase makes the same of a tree, with other positions. -/
theorem transform_mapSpans (hf : Function.Injective f) : ∀ node : Node,
    phase.transform (node.mapSpans f) = (phase.transform node).map (Node.mapSpans f)
  | ⟨kind, token, position, properties, slots⟩ => by
    rw [Node.mapSpans, transform, transform, transformSlots_mapSpans hf slots]
    exact map_bind_eq fun slots =>
      phase.replace_mapSpans hf ⟨kind, token, position, properties, slots⟩

theorem transformSlots_mapSpans (hf : Function.Injective f) : ∀ slots : List (String × Slot),
    phase.transformSlots (Node.mapSpansInSlots f slots) =
      (phase.transformSlots slots).map (Node.mapSpansInSlots f)
  | [] => by
    rw [Node.mapSpansInSlots, transformSlots]
    rfl
  | (name, slot) :: rest => by
    rw [Node.mapSpansInSlots, transformSlots, transformSlots, transformSlot_mapSpans hf slot,
      within_map, transformSlots_mapSpans hf rest]
    exact map_bind_eq fun _ => map_bind_eq fun _ => rfl

theorem transformSlot_mapSpans (hf : Function.Injective f) : ∀ slot : Slot,
    phase.transformSlot (slot.mapSpans f) = (phase.transformSlot slot).map (Slot.mapSpans f)
  | .single node => by
    rw [Slot.mapSpans, transformSlot, transformSlot, transform_mapSpans hf node]
    exact map_bind_eq fun _ => rfl
  | .sequence nodes => by
    rw [Slot.mapSpans, transformSlot, transformSlot, transformNodes_mapSpans hf nodes 0]
    exact map_bind_eq fun _ => rfl

theorem transformNodes_mapSpans (hf : Function.Injective f) : ∀ (nodes : List Node) (i : Nat),
    phase.transformNodes i (Node.mapSpansInNodes f nodes) =
      (phase.transformNodes i nodes).map (Node.mapSpansInNodes f)
  | [], i => by
    rw [Node.mapSpansInNodes, transformNodes]
    rfl
  | node :: rest, i => by
    rw [Node.mapSpansInNodes, transformNodes, transformNodes, transform_mapSpans hf node,
      within_map, transformNodes_mapSpans hf rest (i + 1)]
    exact map_bind_eq fun _ => map_bind_eq fun _ => rfl

end

/-- A phase commutes with every injective change of positions. -/
theorem apply_mapSpans (hf : Function.Injective f) (tree : Node) :
    phase.apply (tree.mapSpans f) = (phase.apply tree).map (Node.mapSpans f) := by
  unfold apply
  split
  · rfl
  · exact phase.transform_mapSpans hf tree

end Phase

end CanonicalTree
