import CanonicalTree.Text.Extender
import CanonicalTree.Text.Invisible
import CanonicalTree.Text.Unassigned

/-!
# Shown settings

The form in which settings are shown to people who inspect them: strings in double quotes, lists in
brackets, optional values as `Some(...)` or `None`, and records as a name followed by their fields
in braces.

Inside quotes the quote, the backslash and the blank controls are escaped by a letter; characters
that leave no mark of their own are written by their code.
-/

namespace CanonicalTree.Text

/-- Whether a character leaves a mark of its own. -/
def isMarked (c : Char) : Bool :=
  !(isInvisible c || isExtender c || isUnassigned c)

/-- One character inside a quoted string. -/
def quoteChar (c : Char) : List Char :=
  if c = '"' then ['\\', '"']
  else if c = '\\' then ['\\', '\\']
  else if c.toNat = 0 then ['\\', '0']
  else if c.toNat = 9 then ['\\', 't']
  else if c.toNat = 10 then ['\\', 'n']
  else if c.toNat = 13 then ['\\', 'r']
  else if isMarked c then [c]
  else ['\\', 'u', '\x7b'] ++ Nat.toDigits 16 c.toNat ++ ['\x7d']

/-- A string in quotes. -/
def quoted (s : String) : String :=
  "\"" ++ String.ofList (s.toList.flatMap quoteChar) ++ "\""

/-- A list of strings. -/
def list (items : List String) : String :=
  "[" ++ String.intercalate ", " (items.map quoted) ++ "]"

/-- An optional string. -/
def optional : Option String → String
  | none => "None"
  | some s => "Some(" ++ quoted s ++ ")"

/-- A record with all its fields; `more` says that it has others which are not shown. -/
def record (name : String) (fields : List (String × String)) (more : Bool) : String :=
  let shown := fields.map fun field => field.1 ++ ": " ++ field.2
  name ++ " \x7b " ++ String.intercalate ", " (if more then shown ++ [".."] else shown) ++ " \x7d"

end CanonicalTree.Text
