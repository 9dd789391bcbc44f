import CanonicalTree.Json.Basic

/-!
# Writing JSON

`Json.text` is the compact form, without any blanks. `Json.pretty` puts every item and every field
on a line of its own, indented by two blanks a level; an empty sequence or record stays on one
line.

Inside strings the quote, the backslash and the control characters below the blank are escaped,
five of them by a letter and the others by four lower-case hexadecimal digits. Everything else
stands as it is.
-/

namespace CanonicalTree.Json

/-- One character inside a quoted string. -/
def escapeChar (c : Char) : List Char :=
  if c = '"' then ['\\', '"']
  else if c = '\\' then ['\\', '\\']
  else if c.toNat = 8 then ['\\', 'b']
  else if c.toNat = 9 then ['\\', 't']
  else if c.toNat = 10 then ['\\', 'n']
  else if c.toNat = 12 then ['\\', 'f']
  else if c.toNat = 13 then ['\\', 'r']
  else if c.toNat < 32 then
    ['\\', 'u', '0', '0', Nat.digitChar (c.toNat / 16), Nat.digitChar (c.toNat % 16)]
  else [c]

/-- A string in quotes. -/
def quote (s : String) : String :=
  "\"" ++ String.ofList (s.toList.flatMap escapeChar) ++ "\""

mutual

/-- The compact text of a value. -/
def text : Json → String
  | .null => "null"
  | .bool true => "true"
  | .bool false => "false"
  | .num number => number.text
  | .str s => quote s
  | .arr items => "[" ++ String.intercalate "," (textItems items) ++ "]"
  | .obj fields => "\x7b" ++ String.intercalate "," (textFields fields) ++ "\x7d"

/-- The compact texts of the items of a sequence. -/
def textItems : List Json → List String
  | [] => []
  | item :: rest => text item :: textItems rest

/-- The compact texts of the fields of a record. -/
def textFields : List (String × Json) → List String
  | [] => []
  | (name, value) :: rest => (quote name ++ ":" ++ text value) :: textFields rest

end

/-- A line break followed by the indentation of a level. -/
def newline (level : Nat) : String :=
  "\n" ++ String.ofList (List.replicate (2 * level) ' ')

/-- The entries of a container, one a line, between its brackets. -/
def block (level : Nat) (opening closing : String) (entries : List String) : String :=
  match entries with
  | [] => opening ++ closing
  | _ =>
    opening ++ newline (level + 1) ++ String.intercalate ("," ++ newline (level + 1)) entries ++
      newline level ++ closing

mutual

/-- The indented text of a value that stands at the given level. -/
def prettyAt (level : Nat) : Json → String
  | .arr items => block level "[" "]" (prettyItems (level + 1) items)
  | .obj fields => block level "\x7b" "\x7d" (prettyFields (level + 1) fields)
  | .null => "null"
  | .bool true => "true"
  | .bool false => "false"
  | .num number => number.text
  | .str s => quote s

/-- The indented texts of the items of a sequence. -/
def prettyItems (level : Nat) : List Json → List String
  | [] => []
  | item :: rest => prettyAt level item :: prettyItems level rest

/-- The indented texts of the fields of a record. -/
def prettyFields (level : Nat) : List (String × Json) → List String
  | [] => []
  | (name, value) :: rest => (quote name ++ ": " ++ prettyAt level value) :: prettyFields level rest

end

/-- The indented text of a value. -/
def pretty (value : Json) : String :=
  prettyAt 0 value

end CanonicalTree.Json
