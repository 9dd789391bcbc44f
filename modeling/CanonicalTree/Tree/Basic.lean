import CanonicalTree.Fields
import CanonicalTree.Tree.Scalar
import CanonicalTree.Tree.Span

/-!
# Canonical trees

A node has a kind, perhaps a token and a position, scalar properties, and slots that hold its
children: a slot holds one node or a sequence of nodes. Properties and slots keep their order.

Nodes are compared by `Node.same`, for which the order of properties and slots does not count and
numbers are compared by form and value. `WellFormed` says that no name occurs twice among the
properties or the slots of any node; all trees that this library builds are well formed.
-/

namespace CanonicalTree

mutual

/-- A node of a canonical tree. -/
structure Node where
  /-- What the node is. -/
  kind : String
  /-- The text of the node, if it carries one. -/
  token : Option String := none
  /-- Where the node stands in the source. -/
  position : Option Span := none
  /-- The scalar properties. -/
  properties : List (String × Scalar) := []
  /-- The children by slot. -/
  slots : List (String × Slot) := []

/-- What a slot of a node holds. -/
inductive Slot where
  /-- One child. -/
  | single (node : Node)
  /-- A sequence of children. -/
  | sequence (nodes : List Node)

end

instance : Inhabited Node := ⟨{ kind := "" }⟩

namespace Slot

/-- The children in order. -/
def nodes : Slot → List Node
  | .single node => [node]
  | .sequence nodes => nodes

/-- The only child of a slot that holds one. -/
def asSingle? : Slot → Option Node
  | .single node => some node
  | .sequence _ => none

/-- The children of a slot that holds a sequence. -/
def asSequence? : Slot → Option (List Node)
  | .sequence nodes => some nodes
  | .single _ => none

end Slot

namespace Node

/-- The property stored under `key`. -/
def property? (node : Node) (key : String) : Option Scalar :=
  Fields.get? node.properties key

/-- The slot called `name`. -/
def slot? (node : Node) (name : String) : Option Slot :=
  Fields.get? node.slots name

/-- The child in the slot called `name`, if that slot holds one node. -/
def child? (node : Node) (name : String) : Option Node :=
  (node.slot? name).bind Slot.asSingle?

/-- The children in the slot called `name`, if that slot holds a sequence. -/
def sequence? (node : Node) (name : String) : Option (List Node) :=
  (node.slot? name).bind Slot.asSequence?

/-- A leaf that is nothing but a piece of text. -/
def leaf (text : String) : Node :=
  { kind := "", token := some text }

/-- Whether the node is nothing but a piece of text, its position apart. -/
def isLeaf (node : Node) : Bool :=
  node.kind.isEmpty && node.token.isSome && node.properties.isEmpty && node.slots.isEmpty

end Node

/-! ## Equality -/

mutual

/-- Whether two nodes are the same, however their properties and slots are ordered. -/
def Node.same : Node → Node → Bool
  | ⟨kind, token, position, properties, slots⟩, other =>
    kind == other.kind && token == other.token && position == other.position &&
      Fields.agree Scalar.sameValue properties other.properties &&
      slots.length == other.slots.length && Node.sameSlots slots other.slots

/-- Whether every slot of the first list occurs in the second with the same content. -/
def Node.sameSlots : List (String × Slot) → List (String × Slot) → Bool
  | [], _ => true
  | (name, slot) :: rest, others =>
    (match Fields.get? others name with
      | some other => Slot.same slot other
      | none => false) && Node.sameSlots rest others

/-- Whether two slots have the same form and hold the same nodes. -/
def Slot.same : Slot → Slot → Bool
  | .single node, .single other => Node.same node other
  | .sequence nodes, .sequence others => Node.sameNodes nodes others
  | _, _ => false

/-- Whether two sequences hold the same nodes in the same order. -/
def Node.sameNodes : List Node → List Node → Bool
  | [], [] => true
  | node :: rest, other :: others => Node.same node other && Node.sameNodes rest others
  | _, _ => false

end

/-! ## Well-formed trees -/

mutual

/-- No name occurs twice among the properties or among the slots of any node. -/
def Node.WellFormed : Node → Prop
  | ⟨_, _, _, properties, slots⟩ =>
    Fields.Distinct properties ∧ Fields.Distinct slots ∧ Node.WellFormedSlots slots

/-- All nodes in these slots are well formed. -/
def Node.WellFormedSlots : List (String × Slot) → Prop
  | [] => True
  | (_, slot) :: rest => Slot.WellFormed slot ∧ Node.WellFormedSlots rest

/-- All nodes in this slot are well formed. -/
def Slot.WellFormed : Slot → Prop
  | .single node => Node.WellFormed node
  | .sequence nodes => Node.WellFormedNodes nodes

/-- All these nodes are well formed. -/
def Node.WellFormedNodes : List Node → Prop
  | [] => True
  | node :: rest => Node.WellFormed node ∧ Node.WellFormedNodes rest

end

end CanonicalTree
