import CanonicalTree.Cli.SystemString
import CanonicalTree.Pipeline
import CanonicalTree.Telemetry

/-!
# Commands

What the arguments of the program can ask for: a command, or a notice in the words of the library
that reads them, such as the help or what is wrong with the arguments.
-/

namespace CanonicalTree.Cli

/-- A command to normalize a response. -/
structure Command where
  /-- How diagnostics are written. -/
  log : LogConfig := {}
  /-- The file with the response, or `-` for the standard input. -/
  input : SystemString
  /-- The file with the source. -/
  source : SystemString
  /-- How far to normalize. -/
  mode : Mode := .semantic
  /-- The encoding of the source. -/
  encoding : Encoding := .utf8
  /-- What columns count. -/
  unit : ColumnUnit := .codeUnit
  /-- Whether the tree is written with indentation. -/
  pretty : Bool := false
  deriving DecidableEq

/-- The name that stands for the standard input. -/
def standardInput : SystemString := .ofText "-"

/-- Whether the response is read from the standard input. -/
def Command.readsStdin (command : Command) : Bool :=
  command.input = standardInput

/-- What is said to arguments that are no command. -/
structure Notice where
  /-- The text, line breaks included. -/
  text : String
  /-- Whether the arguments are mistaken; otherwise the text is what they ask for. -/
  mistaken : Bool
  deriving DecidableEq

end CanonicalTree.Cli
