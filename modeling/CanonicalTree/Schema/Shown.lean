import CanonicalTree.Schema.Basic
import CanonicalTree.Text.Shown

/-!
# Shown schemas

What people are shown who inspect a schema: the names of its special fields and of its repairs. The
records that it takes for nodes, and what a repair does, cannot be shown.
-/

namespace CanonicalTree

/-- A repair that is made from a function, as it is shown: by its name. -/
def Repair.shown (repair : Repair) : String :=
  Text.record "FnFixup" [("name", Text.quoted repair.name)] false

/-- A row of repairs as it is shown: by their names. -/
def Repair.shownAll (repairs : List Repair) : String :=
  Text.list (repairs.map Repair.name)

/-- The names of special fields as they are shown. -/
def Schema.Keys.shown (keys : Schema.Keys) : String :=
  Text.record "FieldNames"
    [("kind", Text.quoted keys.kind), ("offset", Text.optional keys.offset),
      ("end_offset", Text.optional keys.endOffset), ("line", Text.optional keys.line),
      ("column", Text.optional keys.column), ("end_line", Text.optional keys.endLine),
      ("end_column", Text.optional keys.endColumn), ("tokens", Text.list keys.tokens)] false

/-- A schema as it is shown. -/
def Schema.shown (schema : Schema) : String :=
  Text.record "ObjectToNode"
    [("fields", schema.keys.shown), ("fixups", Repair.shownAll schema.repairs)] true

end CanonicalTree
