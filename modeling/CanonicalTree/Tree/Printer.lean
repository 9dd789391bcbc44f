import CanonicalTree.Tree.Basic

/-!
# Trees as JSON

A node is written as a record with its kind, token, position, properties and children, in this
order; what is absent or empty is left out. A slot is written as the record of its node, or as the
sequence of the records of its nodes.
-/

namespace CanonicalTree

mutual

/-- The node as a JSON value. -/
def Node.toJson : Node → Json
  | ⟨kind, token, position, properties, slots⟩ =>
    .obj <|
      ("kind", .str kind) ::
        (match token with
          | some text => [("token", .str text)]
          | none => []) ++
        (match position with
          | some span => [("position", span.toJson)]
          | none => []) ++
        (match properties with
          | [] => []
          | _ => [("properties", .obj (properties.map fun entry => (entry.1, entry.2.toJson)))]) ++
        (match slots with
          | [] => []
          | slot :: rest => [("children", .obj (Node.slotsToJson (slot :: rest)))])

/-- Slots as the fields of a record. -/
def Node.slotsToJson : List (String × Slot) → List (String × Json)
  | [] => []
  | (name, slot) :: rest => (name, Slot.toJson slot) :: Node.slotsToJson rest

/-- A slot as a JSON value. -/
def Slot.toJson : Slot → Json
  | .single node => Node.toJson node
  | .sequence nodes => .arr (Node.nodesToJson nodes)

/-- Nodes as the items of a sequence. -/
def Node.nodesToJson : List Node → List Json
  | [] => []
  | node :: rest => Node.toJson node :: Node.nodesToJson rest

end

/-- The node as compact text. -/
def Node.text (node : Node) : String :=
  node.toJson.text

end CanonicalTree
