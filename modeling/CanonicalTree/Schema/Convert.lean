import CanonicalTree.Schema.Position
import CanonicalTree.Tree.Basic

/-!
# Conversion of native trees

A record that is a node becomes a node: its kind, token and position are lifted from the fields
that the schema names, and each remaining field contributes to the node in turn.

* A field with a node record becomes a slot with one child.
* A field with a sequence, whose items must all be node records, becomes a slot with a sequence.
* A field with a scalar becomes a property.
* A field with any other record is data: its scalars, at any depth, become properties of the node.

Every record is repaired once, before anything else is done with it. The root is a node whatever
the schema says of it.

Repairs may change the nesting of what is still to be visited, so the recursion counts levels:
`fuel` bounds how deeply it descends. Without repairs that add records the depth of the value is
enough. With them, a run that ends at all visits no record of an added value more than twice on one
way down, because the second visit contributes the same properties again; this is the bound that
`Schema.levels` computes.
-/

namespace CanonicalTree.Schema

/-- The kind of a node record: the string under the kind key, which must not be empty. -/
def kind (keys : Keys) (record : Record) : Except Failure String :=
  match Fields.get? record keys.kind with
  | some (.str kind) => if kind.isEmpty then .error (.here (.missingKind keys.kind)) else .ok kind
  | _ => .error (.here (.missingKind keys.kind))

/-- The first of `candidates` under which the record holds something other than `null`, with what it
holds. -/
def tokenField? (candidates : List String) (record : Record) : Option (String × Json) :=
  candidates.findSome? fun key =>
    match Fields.get? record key with
    | none => none
    | some .null => none
    | some value => some (key, value)

/-- The token of a node record and the field that holds it. -/
def token (keys : Keys) (record : Record) : Except Failure (Option (String × String)) :=
  match tokenField? keys.tokens record with
  | none => .ok none
  | some (key, value) =>
    match (Scalar.ofJson? value).bind Scalar.text? with
    | some text => .ok (some (key, text))
    | none => .error ((ShapeFault.token value).failure.under (.field key))

/-- Whether a field has been lifted into the node itself, given the field that holds the token. -/
def isLifted (keys : Keys) (tokenKey : Option String) (field : String × Json) : Bool :=
  field.1 = keys.kind || keys.isPositional field.1 || tokenKey = some field.1 ||
    (field.2.isNull && keys.tokens.contains field.1)

/-- Add a property that the node does not have yet. Its value has to be a scalar. -/
def addProperty (properties : Fields Scalar) (key : String) (value : Json) :
    Except Failure (Fields Scalar) :=
  match Scalar.ofJson? value with
  | none => .error (ShapeFault.property value).failure
  | some scalar =>
    if Fields.contains properties key then .error (ShapeFault.repeatedProperty key).failure
    else .ok (properties ++ [(key, scalar)])

/-- Add what one field of a data record contributes, given how to add a nested data record. -/
def addDatum (schema : Schema) (nested : Record → Fields Scalar → Except Failure (Fields Scalar))
    (properties : Fields Scalar) (field : String × Json) : Except Failure (Fields Scalar) :=
  within (.field field.1) <|
    match field.2 with
    | .obj record => do
      let repaired ← schema.repair record
      if schema.isNode repaired then .error ShapeFault.nodeInData.failure
      else nested repaired properties
    | .arr _ => .error ShapeFault.sequenceInData.failure
    | value => addProperty properties field.1 value

/-- Add the scalars of a repaired data record to the properties of a node. -/
def flatten (schema : Schema) (fuel : Nat) (record : Record) (properties : Fields Scalar) :
    Except Failure (Fields Scalar) :=
  match fuel with
  | 0 => .error (.here .endlessRepair)
  | fuel + 1 => record.foldlM (addDatum schema (flatten schema fuel)) properties

/-- The node that an item of a sequence is, given how to convert a repaired node record. -/
def item (schema : Schema) (convert : Record → Except Failure Node) (value : Json) :
    Except Failure Node :=
  match value with
  | .obj record => do
    let repaired ← schema.repair record
    if schema.isNode repaired then convert repaired else .error ShapeFault.dataItem.failure
  | other => .error (ShapeFault.item other).failure

/-- The nodes that the items of a sequence are, the first of which stands at index `i`. -/
def items (schema : Schema) (convert : Record → Except Failure Node) (i : Nat) :
    List Json → Except Failure (List Node)
  | [] => .ok []
  | value :: rest => do
    let node ← within (.index i) (item schema convert value)
    let nodes ← items schema convert (i + 1) rest
    pure (node :: nodes)

/-- Add a property to a node. -/
def addNodeProperty (node : Node) (key : String) (value : Json) : Except Failure Node := do
  let properties ← addProperty node.properties key value
  pure { node with properties := properties }

/-- Add a slot to a node. -/
def addSlot (node : Node) (name : String) (slot : Slot) : Node :=
  { node with slots := node.slots ++ [(name, slot)] }

/-- Add what one field of a node record contributes, given how to convert a repaired node record and
how to add a repaired data record. -/
def addField (schema : Schema) (convert : Record → Except Failure Node)
    (flatten : Record → Fields Scalar → Except Failure (Fields Scalar)) (node : Node)
    (field : String × Json) : Except Failure Node :=
  within (.field field.1) <|
    match field.2 with
    | .obj record => do
      let repaired ← schema.repair record
      if schema.isNode repaired then
        let child ← convert repaired
        pure (addSlot node field.1 (.single child))
      else
        let properties ← flatten repaired node.properties
        pure { node with properties := properties }
    | .arr values => do
      let nodes ← items schema convert 0 values
      pure (addSlot node field.1 (.sequence nodes))
    | value => addNodeProperty node field.1 value

/-- The node that a repaired node record describes. -/
def node (schema : Schema) (fuel : Nat) (record : Record) : Except Failure Node :=
  match fuel with
  | 0 => .error (.here .endlessRepair)
  | fuel + 1 => do
    let kind ← kind schema.keys record
    let token ← token schema.keys record
    let position ← position schema.keys record
    let fields := record.filter fun field => !isLifted schema.keys (token.map Prod.fst) field
    fields.foldlM (addField schema (node schema fuel) (flatten schema fuel))
      { kind := kind, token := token.map Prod.snd, position := position }

/-- The number of levels to which conversion of a value may have to descend. Any other number that
suffices leads to the same outcome (`convertWithin_eq_of_ends`). -/
def levels (schema : Schema) (value : Json) : Nat :=
  value.depth + 2 * Repair.totalReach schema.repairs

/-- Convert a native tree, descending at most `fuel` levels. -/
def convertWithin (schema : Schema) (fuel : Nat) (value : Json) : Except Failure Node :=
  match value with
  | .obj record => do
    let repaired ← schema.repair record
    node schema fuel repaired
  | other => .error (ShapeFault.root other).failure

/-- Convert a native tree. -/
def convert (schema : Schema) (value : Json) : Except Failure Node :=
  convertWithin schema (levels schema value) value

end CanonicalTree.Schema
