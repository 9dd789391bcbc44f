import CanonicalTree.Json.Printer
import CanonicalTree.Json.Reader

/-!
# Parser responses

The native parser answers a request with an envelope: a status, the tree if there is one, and
messages. The status is `ok` when there is a tree, `error` when the source could not be parsed, and
`fatal` when the parser itself failed.
-/

namespace CanonicalTree

/-- How a request to the native parser went. -/
inductive Status where
  | ok
  | error
  | fatal
  deriving DecidableEq

namespace Status

/-- All statuses. -/
def all : List Status := [.ok, .error, .fatal]

/-- The name of a status. -/
def name : Status → String
  | .ok => "ok"
  | .error => "error"
  | .fatal => "fatal"

/-- The status with the given name. -/
def ofName? (name : String) : Option Status :=
  all.find? (·.name = name)

end Status

/-- What the native parser answers. -/
structure Response where
  /-- How the request went. -/
  status : Status
  /-- The native tree. -/
  ast : Option Json := none
  /-- The parser's messages. -/
  errors : List String := []

/-- Why a response cannot be decoded. The words for it are those of the JSON library. -/
inductive DecodeFault where
  /-- The text is not JSON, or a part that matters cannot be read. -/
  | unreadable (fault : Json.ReadFault)
  /-- A part has the wrong form. -/
  | unexpected (part : String)
  /-- A part is missing. -/
  | missing (part : String)
  /-- A part is given twice. -/
  | repeated (part : String)
  deriving DecidableEq

/-- Why a response gives no tree. -/
inductive ResponseFault where
  /-- It cannot be decoded, in the words of the JSON library. -/
  | decode (detail : String)
  /-- The parser did not succeed. -/
  | rejected (status : Status) (messages : List String)
  /-- The parser succeeded and sent no tree. -/
  | missingTree
  deriving DecidableEq

/-- The fault in words. -/
def ResponseFault.message : ResponseFault → String
  | .decode detail => "failed to deserialise native response: " ++ detail
  | .rejected status messages =>
    let summary := match messages with
      | [] => "no diagnostics"
      | _ => String.intercalate "; " messages
    "native parser reported " ++ status.name ++ ": " ++ summary
  | .missingTree => "native parser reported ok without an ast"

namespace Response

/-- The response that carries a tree. -/
def success (ast : Json) : Response :=
  { status := .ok, ast := some ast }

/-- The response that carries only messages. -/
def failure (status : Status) (errors : List String) : Response :=
  { status := status, errors := errors }

/-- The tree of a successful response. -/
def tree (response : Response) : Except ResponseFault Json :=
  match response.status, response.ast with
  | .ok, some ast => .ok ast
  | .ok, none => .error .missingTree
  | status, _ => .error (.rejected status response.errors)

/-- The response as a JSON value; an absent tree is left out. -/
def toJson (response : Response) : Json :=
  .obj <|
    ("status", .str response.status.name) ::
      (match response.ast with
        | some ast => [("ast", ast)]
        | none => []) ++
      [("errors", .arr (response.errors.map fun message => .obj [("message", .str message)]))]

/-- The response as compact text. -/
def text (response : Response) : String :=
  response.toJson.text

end Response

end CanonicalTree
