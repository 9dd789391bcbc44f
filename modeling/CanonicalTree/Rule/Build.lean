import CanonicalTree.Rule.Blueprint
import CanonicalTree.Rule.Capture

/-!
# Building nodes

Carrying out a blueprint. The parts of a node are made in the order kind, token, position,
properties, slots, and the first fault ends the work. A node that is built has a kind; only leaves
have none.
-/

namespace CanonicalTree

/-- Why a node could not be built. -/
inductive BuildFault where
  /-- Nothing is kept under the name. -/
  | unbound (name : String)
  /-- What is kept under the name is of another sort. -/
  | mismatch (name found expected : String)
  /-- The node has no kind. -/
  | emptyKind
  /-- The matched node has no token. -/
  | missingToken
  /-- Both keys of a renaming are in use. -/
  | collision (old new : String)
  deriving DecidableEq

/-- The fault in words. -/
def BuildFault.message : BuildFault → String
  | .unbound name => "binding '" ++ name ++ "' is not bound"
  | .mismatch name found expected =>
    "binding '" ++ name ++ "' holds " ++ found ++ ", expected " ++ expected
  | .emptyKind => "built node has an empty kind"
  | .missingToken => "matched node has no token"
  | .collision old new =>
    "renaming '" ++ old ++ "' to '" ++ new ++ "' collides with an existing entry"

namespace Captures

/-- The node kept under a name. -/
def node (captures : Captures) (name : String) : Except BuildFault Node :=
  match Fields.get? captures name with
  | some (.single node) => .ok node
  | some other => .error (.mismatch name other.describe "a node")
  | none => .error (.unbound name)

/-- The node or sequence kept under a name. -/
def slot (captures : Captures) (name : String) : Except BuildFault Slot :=
  match Fields.get? captures name with
  | some (.single node) => .ok (.single node)
  | some (.sequence nodes) => .ok (.sequence nodes)
  | some (.scalar value) =>
    .error (.mismatch name (Capture.scalar value).describe "a node or node sequence")
  | none => .error (.unbound name)

/-- The scalar kept under a name. -/
def scalar (captures : Captures) (name : String) : Except BuildFault Scalar :=
  match Fields.get? captures name with
  | some (.scalar value) => .ok value
  | some other => .error (.mismatch name other.describe "a scalar")
  | none => .error (.unbound name)

/-- The text of the scalar kept under a name. -/
def text (captures : Captures) (name : String) : Except BuildFault String := do
  let value ← captures.scalar name
  match value.text? with
  | some text => pure text
  | none => throw (.mismatch name "null" "text")

end Captures

/-- A text with `old` at its start replaced by `new`; a text that does not start with `old` stays as
it is. -/
def replaceStart (old new text : String) : String :=
  match List.isPrefixOf? old.toList text.toList with
  | some rest => new ++ String.ofList rest
  | none => text

/-- What a blueprint is carried out with: the matched node and what was kept of it. -/
structure BuildContext where
  /-- The kind of the matched node. -/
  kind : String
  /-- The token of the matched node. -/
  token : Option String
  /-- The position of the matched node. -/
  position : Option Span
  /-- What the match kept. -/
  captures : Captures

namespace BuildContext

/-- The context of a match. -/
def ofMatch (node : Node) (captures : Captures) : BuildContext :=
  ⟨node.kind, node.token, node.position, captures⟩

/-- The text that a source gives. -/
def text (context : BuildContext) (source : TextSource) : Except BuildFault String :=
  match source with
  | .literal text => .ok text
  | .captured name => context.captures.text name
  | .matchedKind => .ok context.kind
  | .matchedToken =>
    match context.token with
    | some text => .ok text
    | none => .error .missingToken
  | .renamed name old new => do
    let text ← context.captures.text name
    pure (replaceStart old new text)

/-- The scalar that a source gives. -/
def scalar (context : BuildContext) (source : ScalarSource) : Except BuildFault Scalar :=
  match source with
  | .literal value => .ok value
  | .captured name => context.captures.scalar name
  | .matchedKind => .ok (.str context.kind)

/-- The kind of a node after a blueprint. -/
def kindAfter (context : BuildContext) (kind : String) (source : Option TextSource) :
    Except BuildFault String := do
  let kind ← match source with
    | none => pure kind
    | some source => context.text source
  if kind.isEmpty then throw .emptyKind else pure kind

/-- The token of a node after a change. -/
def tokenAfter (context : BuildContext) (token : Option String) (change : TokenChange) :
    Except BuildFault (Option String) :=
  match change with
  | .keep => .ok token
  | .clear => .ok none
  | .set source => do
    let text ← context.text source
    pure (some text)

/-- The position of a node after a blueprint; `own` is the position it has if it is that of the
match. -/
def positionAfter (context : BuildContext) (own : Option Span) (source : SpanSource) :
    Except BuildFault (Option Span) :=
  match source with
  | .matched => .ok own
  | .captured name => do
    let node ← context.captures.node name
    pure node.position
  | .nowhere => .ok none

/-- Give an entry another key, in place. Nothing happens if the keys are the same or the old one is
unused. Among distinct keys the entry is taken out and put back where it stood
(`renameEntry_eq_putAt`). -/
def renameEntry {α : Type} (fields : Fields α) (old new : String) : Except BuildFault (Fields α) :=
  if old ≠ new ∧ Fields.contains fields old then
    if Fields.contains fields new then .error (.collision old new)
    else .ok (Fields.rename fields old new)
  else .ok fields

/-- Carry out one edit of the properties. -/
def editProperty (context : BuildContext) (properties : Fields Scalar) (edit : Edit ScalarSource) :
    Except BuildFault (Fields Scalar) :=
  match edit with
  | .set key source => do
    let value ← context.scalar source
    pure (Fields.insert properties key value)
  | .remove key => .ok (Fields.erase properties key)
  | .rename old new => renameEntry properties old new

mutual

/-- Carry out a blueprint on `base`; `own` is the position that the result has if it is that of the
match. -/
def build (context : BuildContext) (base : Node) (own : Option Span) :
    Blueprint → Except BuildFault Node
  | ⟨kind, token, position, properties, slots⟩ => do
    let kind ← context.kindAfter base.kind kind
    let token ← context.tokenAfter base.token token
    let position ← context.positionAfter own position
    let properties ← properties.foldlM context.editProperty base.properties
    let slots ← editSlots context base.slots slots
    pure ⟨kind, token, position, properties, slots⟩

/-- Carry out edits of the slots, one after the other. -/
def editSlots (context : BuildContext) (slots : Fields Slot) :
    List (Edit SlotSource) → Except BuildFault (Fields Slot)
  | [] => .ok slots
  | .set name source :: rest => do
    let content ← slot context source
    match content with
    | some content => editSlots context (Fields.insert slots name content) rest
    | none => editSlots context slots rest
  | .remove name :: rest => editSlots context (Fields.erase slots name) rest
  | .rename old new :: rest => do
    let slots ← renameEntry slots old new
    editSlots context slots rest

/-- The content that a source gives, if it gives any. -/
def slot (context : BuildContext) : SlotSource → Except BuildFault (Option Slot)
  | .captured name => do
    let content ← context.captures.slot name
    pure (some content)
  | .capturedIfAny name =>
    if Fields.contains context.captures name then do
      let content ← context.captures.slot name
      pure (some content)
    else .ok none
  | .build blueprint => do
    let node ← build context { kind := "" } context.position blueprint
    pure (some (.single node))
  | .leaf source => do
    let text ← context.text source
    pure (some (.single (.leaf text)))
  | .sequence parts => do
    let nodes ← sequence context parts
    pure (some (.sequence nodes))

/-- Everything that the parts of a sequence contribute, in order. -/
def sequence (context : BuildContext) : List SlotSource → Except BuildFault (List Node)
  | [] => .ok []
  | part :: rest => do
    let content ← slot context part
    let nodes ← sequence context rest
    match content with
    | some content => pure (content.nodes ++ nodes)
    | none => pure nodes

end

end BuildContext

end CanonicalTree
