import CanonicalTree.Fields
import CanonicalTree.Json.Number

/-!
# JSON values

The data model of native trees: records whose fields keep their order, sequences and scalars.
`depth` is the nesting of records and sequences, `containers` their number.
-/

namespace CanonicalTree

/-- A JSON value. -/
inductive Json where
  | null
  | bool (flag : Bool)
  | num (number : Number)
  | str (text : String)
  | arr (items : List Json)
  | obj (fields : List (String × Json))

/-- The fields of a JSON object. -/
abbrev Record := Fields Json

namespace Json

instance : Inhabited Json := ⟨.null⟩

mutual

/-- How deeply records and sequences are nested; a scalar has depth zero. -/
def depth : Json → Nat
  | .arr items => depthItems items + 1
  | .obj fields => depthFields fields + 1
  | _ => 0

/-- The greatest depth among the items of a sequence. -/
def depthItems : List Json → Nat
  | [] => 0
  | item :: rest => max (depth item) (depthItems rest)

/-- The greatest depth among the fields of a record. -/
def depthFields : List (String × Json) → Nat
  | [] => 0
  | (_, value) :: rest => max (depth value) (depthFields rest)

end

mutual

/-- The number of records and sequences in a value, itself included. -/
def containers : Json → Nat
  | .arr items => containersItems items + 1
  | .obj fields => containersFields fields + 1
  | _ => 0

/-- The number of records and sequences among the items of a sequence. -/
def containersItems : List Json → Nat
  | [] => 0
  | item :: rest => containers item + containersItems rest

/-- The number of records and sequences among the fields of a record. -/
def containersFields : List (String × Json) → Nat
  | [] => 0
  | (_, value) :: rest => containers value + containersFields rest

end

/-- What sort of value this is, as it is named in messages. -/
def describe : Json → String
  | .null => "null"
  | .bool _ => "a boolean"
  | .num _ => "a number"
  | .str _ => "a string"
  | .arr _ => "a sequence"
  | .obj _ => "a record"

/-- Whether the value is `null`. -/
def isNull : Json → Bool
  | .null => true
  | _ => false

/-- The text of a string value. -/
def asString? : Json → Option String
  | .str text => some text
  | _ => none

/-- The name that a value spells: a string, or a record whose only field has that name and holds
`null`. -/
def name? : Json → Option String
  | .str name => some name
  | .obj [(name, .null)] => some name
  | _ => none

/-- The number `n` as a value. -/
def ofNat (n : Nat) : Json :=
  .num (.ofNat n)

/-- An optional value, `null` standing for its absence. -/
def ofOption : Option Json → Json
  | none => .null
  | some value => value

end Json

end CanonicalTree
