import CanonicalTree.Schema.Repair

/-!
# Schemas

A schema says how the records of a native tree are read: which fields hold the kind, the token and
the position of a node, which records are nodes, and which repairs are made first.
-/

namespace CanonicalTree

/-- The names of the fields that conversion treats specially. -/
structure Schema.Keys where
  /-- The kind of a node. -/
  kind : String := "kind"
  /-- The byte offset of the start. -/
  offset : Option String := none
  /-- The byte offset of the end. -/
  endOffset : Option String := none
  /-- The line of the start. -/
  line : Option String := none
  /-- The column of the start. -/
  column : Option String := none
  /-- The line of the end. -/
  endLine : Option String := none
  /-- The column of the end. -/
  endColumn : Option String := none
  /-- The fields that may hold the token, the preferred one first. -/
  tokens : List String := []
  deriving DecidableEq

/-- The fields of a position, as far as they have a name. -/
def Schema.Keys.positional (keys : Schema.Keys) : List (Option String) :=
  [keys.offset, keys.endOffset, keys.line, keys.column, keys.endLine, keys.endColumn]

/-- Whether `key` holds a part of the position. -/
def Schema.Keys.isPositional (keys : Schema.Keys) (key : String) : Bool :=
  keys.positional.contains (some key)

/-- Whether a record holds a string under `key`. -/
def Schema.holdsString (key : String) (record : Record) : Bool :=
  match Fields.get? record key with
  | some (.str _) => true
  | _ => false

/-- How native records are read. -/
structure Schema where
  /-- The fields that are treated specially. -/
  keys : Schema.Keys := {}
  /-- Which repaired records are nodes; the others are data. -/
  isNode : Record → Bool := Schema.holdsString keys.kind
  /-- The changes made to every record first, in order. -/
  repairs : List Repair := []

/-- The record as it is after all repairs. -/
def Schema.repair (schema : Schema) (record : Record) : Except Failure Record :=
  Repair.runAll schema.repairs record

end CanonicalTree
