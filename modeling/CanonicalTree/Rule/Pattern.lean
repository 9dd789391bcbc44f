import CanonicalTree.Tree.Basic

/-!
# Patterns

A pattern says what a node must look like: clauses on its kind, its token, its properties and its
slots, where the clauses on slots may hold patterns for the children. Some clauses name what they
find. The name `_` is a name that keeps nothing.
-/

namespace CanonicalTree

/-- What the kind of a node must be. -/
inductive KindClause where
  /-- Any kind. -/
  | any
  /-- Exactly this kind. -/
  | only (kind : String)
  /-- One of these kinds. -/
  | among (kinds : List String)
  deriving DecidableEq

/-- What the token of a node must be. -/
inductive TokenClause where
  /-- Anything, or nothing. -/
  | any
  /-- Some token. -/
  | present
  /-- No token. -/
  | absent
  /-- Exactly this token. -/
  | equals (text : String)
  /-- Some token, kept under a name. -/
  | bind (name : String)
  deriving DecidableEq

/-- What a property of a node must be. -/
inductive PropertyClause where
  /-- Some value. -/
  | present
  /-- No value. -/
  | absent
  /-- Exactly this value. -/
  | equals (value : Scalar)
  /-- Some value, kept under a name. -/
  | bind (name : String)
  deriving DecidableEq

mutual

/-- What a node must look like. -/
structure Pattern where
  /-- The clause on the kind. -/
  kind : KindClause := .any
  /-- The clause on the token. -/
  token : TokenClause := .any
  /-- Clauses on properties, by key. -/
  properties : List (String × PropertyClause) := []
  /-- Clauses on slots, by name. -/
  slots : List (String × SlotClause) := []
  /-- The name under which the node is kept. -/
  bind : Option String := none

/-- What a slot of a node must hold. -/
inductive SlotClause where
  /-- The slot is missing. -/
  | absent
  /-- One child that matches. -/
  | single (pattern : Pattern)
  /-- A sequence all of whose nodes match, kept under a name. -/
  | sequence (element : Option Pattern) (bind : Option String)
  /-- One child or a sequence, kept under a name. -/
  | any (bind : Option String)
  /-- Nothing, or one child that matches. -/
  | optional (pattern : Pattern)

end

instance : Inhabited Pattern := ⟨{}⟩

/-- Whether a kind satisfies the clause. -/
def KindClause.accepts (clause : KindClause) (kind : String) : Bool :=
  match clause with
  | .any => true
  | .only expected => expected == kind
  | .among kinds => kinds.contains kind

end CanonicalTree
