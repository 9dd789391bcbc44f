import CanonicalTree.Json.Token

/-!
# Outlines of JSON text

An outline is the structure of a JSON text with its strings and numbers left as they are written.
Building it checks the grammar and nothing else: nesting is unbounded, names may repeat, and the
meaning of strings and numbers is not looked at. A reader that skips a part of a text asks no more
than this of it.

`Outline.parse?` runs a machine over the lexemes. Its stack holds the open sequences and records,
and what it expects next is one of the constructors of `State`.
-/

namespace CanonicalTree.Json

/-- The structure of a JSON text. -/
inductive Outline where
  | null
  | bool (flag : Bool)
  | number (literal : Decimal.Literal)
  | string (pieces : List Piece)
  | array (items : List Outline)
  | object (members : List (List Piece × Outline))

namespace Outline

/-- A container that is still open, with what it holds so far in reverse. -/
inductive Frame where
  /-- A sequence. -/
  | array (items : List Outline)
  /-- A record, and the name of the member whose value is due. -/
  | object (members : List (List Piece × Outline)) (name : List Piece)

/-- What may come next. -/
inductive State where
  /-- A value. -/
  | value (stack : List Frame)
  /-- The first item of a sequence, or its end. -/
  | firstItem (stack : List Frame)
  /-- The first name of a record, or its end. -/
  | firstName (stack : List Frame)
  /-- A further name of a record. -/
  | name (members : List (List Piece × Outline)) (stack : List Frame)
  /-- The colon after a name. -/
  | colon (members : List (List Piece × Outline)) (name : List Piece) (stack : List Frame)
  /-- Whatever follows a complete value. -/
  | complete (value : Outline) (stack : List Frame)

/-- Take a lexeme that begins a value. -/
def begin? (stack : List Frame) (token : Token) : Option State :=
  match token with
  | .null => some (.complete .null stack)
  | .bool flag => some (.complete (.bool flag) stack)
  | .number literal => some (.complete (.number literal) stack)
  | .string pieces => some (.complete (.string pieces) stack)
  | .openArray => some (.firstItem stack)
  | .openObject => some (.firstName stack)
  | _ => none

/-- Take one more lexeme. -/
def step? (state : State) (token : Token) : Option State :=
  match state, token with
  | .value stack, token => begin? stack token
  | .firstItem stack, .closeArray => some (.complete (.array []) stack)
  | .firstItem stack, token => begin? (.array [] :: stack) token
  | .firstName stack, .closeObject => some (.complete (.object []) stack)
  | .firstName stack, .string pieces => some (.colon [] pieces stack)
  | .name members stack, .string pieces => some (.colon members pieces stack)
  | .colon members name stack, .colon => some (.value (.object members name :: stack))
  | .complete value (.array items :: stack), .comma =>
    some (.value (.array (value :: items) :: stack))
  | .complete value (.array items :: stack), .closeArray =>
    some (.complete (.array (value :: items).reverse) stack)
  | .complete value (.object members name :: stack), .comma =>
    some (.name ((name, value) :: members) stack)
  | .complete value (.object members name :: stack), .closeObject =>
    some (.complete (.object ((name, value) :: members).reverse) stack)
  | _, _ => none

/-- The outline, once the whole text has been read. -/
def finish? (state : State) : Option Outline :=
  match state with
  | .complete value [] => some value
  | _ => none

/-- The outline of a list of lexemes that spell exactly one value. -/
def ofTokens? (tokens : List Token) : Option Outline := do
  let state ← tokens.foldlM step? (.value [])
  finish? state

/-- The outline of a text that holds exactly one value. -/
def parse? (bytes : Bytes) : Option Outline := do
  let tokens ← Token.scan? bytes
  ofTokens? tokens

end Outline

end CanonicalTree.Json
