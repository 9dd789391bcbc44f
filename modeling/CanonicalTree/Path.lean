import CanonicalTree.Json.Basic

/-!
# Paths

A path leads from the root of a tree, or of a JSON value, to one of its parts: field names lead
into records and slots, indices into sequences. It is shown as `$` followed by `.name` for a field
and `[i]` for an index.
-/

namespace CanonicalTree

/-- One step of a path. -/
inductive Segment where
  /-- Into the field or slot with this name. -/
  | field (name : String)
  /-- Into the item at this index. -/
  | index (i : Nat)
  deriving DecidableEq

/-- The steps from the root, outermost first. -/
abbrev Path := List Segment

/-- A step as it is shown. -/
def Segment.text : Segment → String
  | .field name => "." ++ name
  | .index i => "[" ++ toString i ++ "]"

namespace Path

/-- The path of the root. -/
def root : Path := []

/-- Whether this is the path of the root. -/
def isRoot (path : Path) : Bool := path.isEmpty

/-- A path as it is shown. -/
def text (path : Path) : String :=
  "$" ++ String.join (path.map Segment.text)

end Path

/-- The part of a JSON value that a path leads to. -/
def Json.follow (path : Path) (value : Json) : Option Json :=
  match path, value with
  | [], value => some value
  | .field name :: rest, .obj fields => (Fields.get? fields name).bind (follow rest)
  | .index i :: rest, .arr items => items[i]?.bind (follow rest)
  | _, _ => none

end CanonicalTree
