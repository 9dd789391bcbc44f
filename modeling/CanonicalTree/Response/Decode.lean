import CanonicalTree.Response.Basic

/-!
# Decoding responses

A record with known members may be written as an object, whose members stand in any order and whose
unknown members are ignored, or as an array of the known members in order. A known member must not
be given twice. Of an ignored member nothing but its outline is asked, so it may hold numbers,
strings and depths of nesting that could not be read.

The envelope itself counts as one level of nesting.
-/

namespace CanonicalTree.Response

open Json (Outline Piece ReadFault)

/-- A result of reading as a result of decoding. -/
def readable {α : Type} (result : Except ReadFault α) : Except DecodeFault α :=
  match result with
  | .ok value => .ok value
  | .error fault => .error (.unreadable fault)

/-- The known members of an object: for each of `known`, at most one outline. Unknown members are
dropped. -/
def knownMembers (known : List String) : List (List Piece × Outline) →
    Except DecodeFault (List (String × Outline))
  | [] => .ok []
  | (name, outline) :: rest => do
    let name ← readable (Piece.text name)
    let members ← knownMembers known rest
    if known.contains name then
      if (members.map Prod.fst).contains name then throw (.repeated name)
      else pure ((name, outline) :: members)
    else pure members

/-- The members of a record called `part`, each under its name, from either way of writing it. -/
def members (part : String) (known : List String) :
    Outline → Except DecodeFault (List (String × Outline))
  | .object entries => knownMembers known entries
  | .array items =>
    if items.length ≤ known.length then .ok (known.zip items) else .error (.unexpected part)
  | _ => .error (.unexpected part)

/-- The text that an outline is, if it is one. -/
def textOf (part : String) : Outline → Except DecodeFault String
  | .string pieces => readable (Piece.text pieces)
  | _ => .error (.unexpected part)

/-- The status that an outline spells: its name, or an object that holds `null` under its name. -/
def statusOf (outline : Outline) : Except DecodeFault Status := do
  let name ← match outline with
    | .object [(name, .null)] => readable (Piece.text name)
    | other => textOf "status" other
  match Status.ofName? name with
  | some status => pure status
  | none => throw (.unexpected "status")

/-- The tree that an outline holds; `null` stands for its absence. -/
def treeOf (outline : Outline) : Except DecodeFault (Option Json) :=
  match outline with
  | .null => .ok none
  | other => do
    let value ← readable (Json.ofOutline (Json.maxDepth - 1) other)
    pure (some value)

/-- The text of a message. -/
def messageOf (outline : Outline) : Except DecodeFault String := do
  let parts ← members "message" ["message"] outline
  match parts.lookup "message" with
  | some text => textOf "message" text
  | none => throw (.missing "message")

/-- The texts of a sequence of messages. -/
def messagesOf : Outline → Except DecodeFault (List String)
  | .array items => items.mapM messageOf
  | _ => .error (.unexpected "errors")

/-- The response that an outline spells. -/
def ofOutline (outline : Outline) : Except DecodeFault Response := do
  let parts ← members "response" ["status", "ast", "errors"] outline
  let status ← match parts.lookup "status" with
    | some part => statusOf part
    | none => throw (.missing "status")
  let ast ← match parts.lookup "ast" with
    | some part => treeOf part
    | none => pure none
  let errors ← match parts.lookup "errors" with
    | some part => messagesOf part
    | none => pure []
  pure ⟨status, ast, errors⟩

/-- The response that a text spells; `complaint` words the fault if there is none. -/
def decode (complaint : DecodeFault → String) (bytes : Bytes) : Except ResponseFault Response :=
  match Outline.parse? bytes with
  | none => .error (.decode (complaint (.unreadable .malformed)))
  | some outline =>
    match ofOutline outline with
    | .ok response => .ok response
    | .error fault => .error (.decode (complaint fault))

end CanonicalTree.Response
