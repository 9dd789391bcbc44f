import CanonicalTree.Pipeline

/-!
# Trees of the TypeScript compiler

The schema and the rules for trees printed by the TypeScript compiler. Its records carry a string
kind, byte offsets, and modifiers as a sequence of flags.

Identifiers keep their name in `escapedText` instead of a token. The compiler escapes names that
start with two underscores by one more underscore; the preprocessing phase moves the name into the
token and drops that underscore again. The normalizing phase gives declarations, identifiers and
literals their canonical kinds.
-/

namespace CanonicalTree.Compiler

/-- How the compiler's records are read. -/
def schema : Schema where
  keys :=
    { kind := "kind", offset := some "pos", endOffset := some "end", line := some "line",
      column := some "col", tokens := ["text"] }
  repairs := [Repair.flags "flags"]

/-- The kinds of identifiers. -/
def identifierKinds : List String := ["Identifier", "PrivateIdentifier"]

/-- The property in which the compiler keeps the name of an identifier. -/
def escapedName : String := "escapedText"

/-- Move the names of identifiers into their tokens. -/
def preprocess : Phase where
  name := "preprocessing"
  rules := [
    { name := "escaped_text_token"
      pattern :=
        { kind := .among identifierKinds
          token := .absent
          properties := [(escapedName, .bind "name")] }
      action := .edit
        { token := .set (.renamed "name" "___" "__"), properties := [.remove escapedName] } },
    { name := "escaped_text_duplicate"
      pattern := { kind := .among identifierKinds, properties := [(escapedName, .present)] }
      action := .edit { properties := [.remove escapedName] } }]

/-- The kinds of declarations and what is declared. -/
def declarations : List (String × String) := [
  ("FunctionDecl", "function"),
  ("FunctionDeclaration", "function"),
  ("MethodDeclaration", "method"),
  ("ClassDeclaration", "class"),
  ("InterfaceDeclaration", "interface"),
  ("TypeAliasDeclaration", "type_alias"),
  ("EnumDeclaration", "enum")]

/-- The kinds of simple nodes and their canonical kinds. -/
def simpleKinds : List (String × String) := [
  ("Identifier", "uast:Identifier"),
  ("StringLiteral", "uast:String"),
  ("NumericLiteral", "uast:Number")]

/-- Make a declaration of one kind canonical. -/
def declarationRule (native declared : String) : Rule where
  name := native
  pattern := { kind := .only native }
  action := .edit
    { kind := some (.literal "uast:Declaration")
      properties :=
        [.set "declaration_kind" (.literal (.str declared)), .set "native_kind" .matchedKind]
      slots := [.rename "parameters" "params", .rename "members" "body"] }

/-- Make a simple node of one kind canonical. -/
def simpleRule (native canonical : String) : Rule where
  name := native
  pattern := { kind := .only native }
  action := .edit { kind := some (.literal canonical) }

/-- Make a private identifier canonical. -/
def privateRule : Rule where
  name := "PrivateIdentifier"
  pattern := { kind := .only "PrivateIdentifier" }
  action := .edit
    { kind := some (.literal "uast:Identifier")
      properties := [.set "private" (.literal (.bool true))] }

/-- Give nodes their canonical kinds. -/
def normalize : Phase where
  name := "semantic"
  rules :=
    declarations.map (fun entry => declarationRule entry.1 entry.2) ++
      simpleKinds.map (fun entry => simpleRule entry.1 entry.2) ++ [privateRule]

/-- The kinds that no canonical tree may hold. -/
def nativeKinds : List String := [
  "FunctionDecl",
  "FunctionDeclaration",
  "MethodDeclaration",
  "ClassDeclaration",
  "InterfaceDeclaration",
  "TypeAliasDeclaration",
  "EnumDeclaration",
  "Identifier",
  "PrivateIdentifier",
  "StringLiteral",
  "NumericLiteral"]

/-- What columns count unless something else is asked for. -/
def defaultUnit : ColumnUnit := .codeUnit

/-- The pipeline for the compiler's trees. -/
def pipeline (unit : ColumnUnit) : Pipeline where
  schema := schema
  resolver := { unit := unit }
  preprocess := preprocess
  normalize := normalize

end CanonicalTree.Compiler
