import CanonicalTree.Json.Printer

/-!
# Scalars

The values that a node's properties hold: the JSON values that are neither records nor sequences.
-/

namespace CanonicalTree

/-- A property value. -/
inductive Scalar where
  | null
  | bool (flag : Bool)
  | num (number : Number)
  | str (text : String)
  deriving DecidableEq

namespace Scalar

/-- The scalar that a JSON value is; records and sequences are none. -/
def ofJson? : Json → Option Scalar
  | .null => some .null
  | .bool flag => some (.bool flag)
  | .num number => some (.num number)
  | .str text => some (.str text)
  | .arr _ => none
  | .obj _ => none

/-- The scalar as a JSON value. -/
def toJson : Scalar → Json
  | .null => .null
  | .bool flag => .bool flag
  | .num number => .num number
  | .str text => .str text

/-- The scalar as plain text: a string stands for itself, `null` has no text. -/
def text? : Scalar → Option String
  | .null => none
  | .bool flag => some (if flag then "true" else "false")
  | .num number => some number.text
  | .str text => some text

/-- The text of a string. -/
def asString? : Scalar → Option String
  | .str text => some text
  | _ => none

/-- The value of a boolean. -/
def asBool? : Scalar → Option Bool
  | .bool flag => some flag
  | _ => none

/-- Equality of scalars, where numbers are compared by form and value. -/
def sameValue : Scalar → Scalar → Bool
  | .null, .null => true
  | .bool a, .bool b => a == b
  | .num a, .num b => a.sameValue b
  | .str a, .str b => a == b
  | _, _ => false

/-- A scalar that is printed is read as it was. -/
@[simp] theorem ofJson?_toJson (s : Scalar) : ofJson? s.toJson = some s := by
  cases s <;> rfl

theorem sameValue_refl (s : Scalar) : sameValue s s = true := by
  cases s <;> simp [sameValue, Number.sameValue_refl]

theorem sameValue_comm (s t : Scalar) : sameValue s t = sameValue t s := by
  cases s <;> cases t <;> simp [sameValue, Number.sameValue_comm, BEq.comm]

end Scalar

end CanonicalTree
