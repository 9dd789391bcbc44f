import CanonicalTree.Tree.Basic

/-!
# Captures

What a match keeps under its names: a node, a sequence of nodes or a scalar; a token is kept as the
string it spells. A name may be used several times, and then everything kept under it must be the
same.
-/

namespace CanonicalTree

/-- A value kept under a name. -/
inductive Capture where
  | single (node : Node)
  | sequence (nodes : List Node)
  | scalar (value : Scalar)

/-- The values kept by a match, in the order in which they were found. -/
abbrev Captures := Fields Capture

namespace Capture

/-- Whether two values are of the same sort and the same. -/
def same : Capture → Capture → Bool
  | .single node, .single other => node.same other
  | .sequence nodes, .sequence others => Node.sameNodes nodes others
  | .scalar value, .scalar other => value.sameValue other
  | _, _ => false

/-- The sort of a value, as it is named in messages. -/
def describe : Capture → String
  | .single _ => "a node"
  | .sequence _ => "a node sequence"
  | .scalar _ => "a scalar"

/-- What a slot holds, as a value to keep. -/
def ofSlot : Slot → Capture
  | .single node => .single node
  | .sequence nodes => .sequence nodes

end Capture

namespace Captures

/-- The name that keeps nothing. -/
def wildcard : String := "_"

/-- Keep a value under a name; `none` if something else is kept there already. -/
def keep (captures : Captures) (name : String) (value : Capture) : Option Captures :=
  if name = wildcard then some captures
  else
    match Fields.get? captures name with
    | some known => if known.same value then some captures else none
    | none => some (captures ++ [(name, value)])

/-- Keep a value if there is a name for it. -/
def keepAs (captures : Captures) (name : Option String) (value : Capture) : Option Captures :=
  match name with
  | none => some captures
  | some name => captures.keep name value

/-- The captures ordered by name. -/
def ordered (captures : Captures) : List (String × Capture) :=
  captures.mergeSort fun a b => a.1 ≤ b.1

end Captures

end CanonicalTree
