import CanonicalTree.Failure
import CanonicalTree.Json.Printer

/-!
# Faults of native trees

The ways in which a native tree can be refused, and their wording. A shape fault stands at the
value it is about; a position fault stands at the node and names the field.
-/

namespace CanonicalTree.Schema

/-- Why a value does not fit into a tree. -/
inductive ShapeFault where
  /-- The root is no record. -/
  | root (found : Json)
  /-- The token is no scalar. -/
  | token (found : Json)
  /-- A sequence stands in a record that is only data. -/
  | sequenceInData
  /-- A node stands in a record that is only data. -/
  | nodeInData
  /-- The value of a property is no scalar. -/
  | property (found : Json)
  /-- A property is contributed twice to one node. -/
  | repeatedProperty (key : String)
  /-- An item of a sequence is no record. -/
  | item (found : Json)
  /-- An item of a sequence is a record that is only data. -/
  | dataItem

/-- The fault in words. -/
def ShapeFault.message : ShapeFault → String
  | .root found => "root must be a record, found " ++ found.describe
  | .token found => "token must be a scalar, found " ++ found.describe
  | .sequenceInData => "sequence nested inside a record that is not a node"
  | .nodeInData => "node nested inside a record that is not a node"
  | .property found => "expected a scalar, found " ++ found.describe
  | .repeatedProperty key => "property '" ++ key ++ "' is defined twice"
  | .item found => "sequences may only hold nodes, found " ++ found.describe
  | .dataItem => "sequences may only hold nodes, found a record that is not a node"

/-- A shape fault as a failure at the place where it is found. -/
def ShapeFault.failure (fault : ShapeFault) : Failure :=
  .here (.invalidShape fault.message)

/-- Why the positional fields of a record make no position. -/
inductive PositionFault where
  /-- The number is negative or has a fraction. -/
  | notWhole (number : Number)
  /-- The value is no number. -/
  | notNumber (found : Json)
  /-- A line or column is zero. -/
  | zero
  /-- A line or column is too large. -/
  | tooLarge (n : UInt64)
  /-- There is no start offset to go with the field. -/
  | withoutStart
  /-- The end lies before the start. -/
  | reversed (stop start : UInt64)
  /-- There is no end offset to go with the field. -/
  | withoutEnd

/-- The fault in words. -/
def PositionFault.message : PositionFault → String
  | .notWhole number => "expected a non-negative integer, found " ++ number.text
  | .notNumber found => "expected a number, found " ++ found.describe
  | .zero => "lines and columns are one-based, found 0"
  | .tooLarge n => toString n.toNat ++ " is too large for a line or column"
  | .withoutStart => "positional field present without a start offset"
  | .reversed stop start =>
    "end offset " ++ toString stop.toNat ++ " precedes start offset " ++ toString start.toNat
  | .withoutEnd => "end line or column present without an end offset"

/-- A position fault as a failure at the node whose field it is about. -/
def PositionFault.failure (field : String) (fault : PositionFault) : Failure :=
  .here (.invalidPosition .convert field fault.message)

end CanonicalTree.Schema
