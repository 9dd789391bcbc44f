import CanonicalTree.Rule.Capture
import CanonicalTree.Rule.Pattern

/-!
# Matching

A pattern matches a node if all its clauses hold and all values kept under one name are the same.
The clauses are tried in the order kind, token, properties, slots; the node itself is kept last.
-/

namespace CanonicalTree

/-- Try a clause on a token. -/
def TokenClause.match? (clause : TokenClause) (token : Option String) (captures : Captures) :
    Option Captures :=
  match clause, token with
  | .any, _ => some captures
  | .present, some _ => some captures
  | .absent, none => some captures
  | .equals expected, some text => if expected = text then some captures else none
  | .bind name, some text => captures.keep name (.scalar (.str text))
  | _, _ => none

/-- Try a clause on the value of a property. -/
def PropertyClause.match? (clause : PropertyClause) (value : Option Scalar) (captures : Captures) :
    Option Captures :=
  match clause, value with
  | .present, some _ => some captures
  | .absent, none => some captures
  | .equals expected, some actual => if expected.sameValue actual then some captures else none
  | .bind name, some actual => captures.keep name (.scalar actual)
  | _, _ => none

/-- Try clauses on the properties of a node, one after the other. -/
def Pattern.matchProperties? (clauses : List (String × PropertyClause)) (node : Node)
    (captures : Captures) : Option Captures :=
  clauses.foldlM (fun captures clause => clause.2.match? (node.property? clause.1) captures)
    captures

mutual

/-- Try a pattern on a node. -/
def Pattern.match? : Pattern → Node → Captures → Option Captures
  | ⟨kind, token, properties, slots, bind⟩, node, captures =>
    if kind.accepts node.kind then do
      let captures ← token.match? node.token captures
      let captures ← Pattern.matchProperties? properties node captures
      let captures ← Pattern.matchSlots? slots node captures
      captures.keepAs bind (.single node)
    else none

/-- Try clauses on the slots of a node, one after the other. -/
def Pattern.matchSlots? : List (String × SlotClause) → Node → Captures → Option Captures
  | [], _, captures => some captures
  | (name, clause) :: rest, node, captures =>
    match SlotClause.match? clause (node.slot? name) captures with
    | some captures => Pattern.matchSlots? rest node captures
    | none => none

/-- Try a clause on the content of a slot. -/
def SlotClause.match? : SlotClause → Option Slot → Captures → Option Captures
  | .absent, none, captures => some captures
  | .optional _, none, captures => some captures
  | .optional pattern, some (.single child), captures => Pattern.match? pattern child captures
  | .single pattern, some (.single child), captures => Pattern.match? pattern child captures
  | .sequence none bind, some (.sequence nodes), captures => captures.keepAs bind (.sequence nodes)
  | .sequence (some pattern) bind, some (.sequence nodes), captures =>
    match nodes.foldlM (fun captures node => Pattern.match? pattern node captures) captures with
    | some captures => Captures.keepAs captures bind (.sequence nodes)
    | none => none
  | .any bind, some slot, captures => captures.keepAs bind (.ofSlot slot)
  | _, _, _ => none

end

/-- What a pattern keeps of a node that it matches. -/
def Pattern.captures? (pattern : Pattern) (node : Node) : Option Captures :=
  pattern.match? node []

end CanonicalTree
