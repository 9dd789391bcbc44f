import CanonicalTree.Failure
import CanonicalTree.Rule.Build
import CanonicalTree.Rule.Match

/-!
# Rules and phases

A rule replaces the nodes that its pattern matches. A phase applies a list of rules to a tree from
the bottom up: the children of a node are transformed before the node itself, the first rule that
matches replaces the node, and the replacement is not looked at again. A node that no rule matches
stays as it is.
-/

namespace CanonicalTree

/-- How a rule replaces a node. -/
inductive Action where
  /-- By a new node. -/
  | build (blueprint : Blueprint)
  /-- By the matched node after some changes. -/
  | edit (blueprint : Blueprint)
  /-- By the node kept under a name. -/
  | replace (name : String)

/-- The replacement of a matched node. -/
def Action.run (action : Action) (node : Node) (captures : Captures) : Except BuildFault Node :=
  let context := BuildContext.ofMatch node captures
  match action with
  | .replace name => captures.node name
  | .build blueprint => context.build { kind := "" } context.position blueprint
  | .edit blueprint => context.build node node.position blueprint

/-- A rule that replaces nodes. -/
structure Rule where
  /-- The name by which failures refer to it. -/
  name : String := ""
  /-- Which nodes it replaces. -/
  pattern : Pattern := {}
  /-- What it replaces them by. -/
  action : Action

/-- What a rule keeps of a node, if it matches. -/
def Rule.captures? (rule : Rule) (node : Node) : Option Captures :=
  rule.pattern.captures? node

/-- Rules that are applied together. -/
structure Phase where
  /-- The name by which failures refer to it. -/
  name : String := ""
  /-- The rules; of several that match, the first one counts. -/
  rules : List Rule := []

namespace Phase

/-- The first of the rules that matches a node, with its index and what it keeps; `i` is the index
of the first rule. -/
def firstMatch? (node : Node) (i : Nat) : List Rule → Option (Nat × Rule × Captures)
  | [] => none
  | rule :: rest =>
    match rule.captures? node with
    | some captures => some (i, rule, captures)
    | none => firstMatch? node (i + 1) rest

/-- Replace a node by the first rule that matches it. -/
def replace (phase : Phase) (node : Node) : Except Failure Node :=
  match firstMatch? node 0 phase.rules with
  | none => .ok node
  | some (index, rule, captures) =>
    match rule.action.run node captures with
    | .ok replacement => .ok replacement
    | .error fault => .error (.here (.ruleApplication phase.name index rule.name fault.message))

mutual

/-- Transform a node, its children first. -/
def transform (phase : Phase) : Node → Except Failure Node
  | ⟨kind, token, position, properties, slots⟩ => do
    let slots ← transformSlots phase slots
    phase.replace ⟨kind, token, position, properties, slots⟩

/-- Transform the nodes in these slots. -/
def transformSlots (phase : Phase) : List (String × Slot) → Except Failure (List (String × Slot))
  | [] => .ok []
  | (name, slot) :: rest => do
    let slot ← within (.field name) (transformSlot phase slot)
    let slots ← transformSlots phase rest
    pure ((name, slot) :: slots)

/-- Transform the nodes in this slot. -/
def transformSlot (phase : Phase) : Slot → Except Failure Slot
  | .single node => do
    let node ← transform phase node
    pure (.single node)
  | .sequence nodes => do
    let nodes ← transformNodes phase 0 nodes
    pure (.sequence nodes)

/-- Transform these nodes, the first of which stands at index `i`. -/
def transformNodes (phase : Phase) (i : Nat) : List Node → Except Failure (List Node)
  | [] => .ok []
  | node :: rest => do
    let node ← within (.index i) (transform phase node)
    let nodes ← transformNodes phase (i + 1) rest
    pure (node :: nodes)

end

/-- Apply the phase to a tree; a phase without rules leaves it alone. -/
def apply (phase : Phase) (tree : Node) : Except Failure Node :=
  if phase.rules.isEmpty then .ok tree else phase.transform tree

end Phase

end CanonicalTree
