import CanonicalTree.Tree.Basic

/-!
# Blueprints

A blueprint says how a node is made from a match: where its kind, token and position come from and
which edits its properties and slots undergo. It is applied to an empty node or to the node that
was matched.
-/

namespace CanonicalTree

/-- Where a piece of text comes from. -/
inductive TextSource where
  /-- This text. -/
  | literal (text : String)
  /-- The text of the scalar kept under a name. -/
  | captured (name : String)
  /-- The kind of the matched node. -/
  | matchedKind
  /-- The token of the matched node. -/
  | matchedToken
  /-- The text of the scalar kept under a name, with `old` at its start replaced by `new`. -/
  | renamed (name old new : String)
  deriving DecidableEq

/-- Where the value of a property comes from. -/
inductive ScalarSource where
  /-- This value. -/
  | literal (value : Scalar)
  /-- The scalar kept under a name. -/
  | captured (name : String)
  /-- The kind of the matched node. -/
  | matchedKind
  deriving DecidableEq

/-- What happens to the token. -/
inductive TokenChange where
  | keep
  | clear
  | set (source : TextSource)
  deriving DecidableEq

/-- Where the position comes from. -/
inductive SpanSource where
  /-- The matched node. -/
  | matched
  /-- The node kept under a name. -/
  | captured (name : String)
  /-- Nowhere: the node has no position. -/
  | nowhere
  deriving DecidableEq

/-- A change to named entries. -/
inductive Edit (σ : Type) where
  /-- Store something under a key. -/
  | set (key : String) (source : σ)
  /-- Remove what is stored under a key. -/
  | remove (key : String)
  /-- Give an entry another key. -/
  | rename (old new : String)

mutual

/-- How a node is made from a match. -/
structure Blueprint where
  /-- Where the kind comes from, if it changes. -/
  kind : Option TextSource := none
  /-- What happens to the token. -/
  token : TokenChange := .keep
  /-- Where the position comes from. -/
  position : SpanSource := .matched
  /-- The changes to the properties, in order. -/
  properties : List (Edit ScalarSource) := []
  /-- The changes to the slots, in order. -/
  slots : List (Edit SlotSource) := []

/-- Where the content of a slot comes from. -/
inductive SlotSource where
  /-- The node or sequence kept under a name. -/
  | captured (name : String)
  /-- The node or sequence kept under a name, if there is one. -/
  | capturedIfAny (name : String)
  /-- A new node. -/
  | build (blueprint : Blueprint)
  /-- A sequence of everything that the parts contribute. -/
  | sequence (parts : List SlotSource)
  /-- A leaf with this text. -/
  | leaf (source : TextSource)

end

instance : Inhabited Blueprint := ⟨{}⟩

instance : Inhabited SlotSource := ⟨.sequence []⟩

end CanonicalTree
