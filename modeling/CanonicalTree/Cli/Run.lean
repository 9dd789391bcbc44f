import CanonicalTree.Cli.Command
import CanonicalTree.Cli.Directory
import CanonicalTree.Profile
import CanonicalTree.Response.Decode
import CanonicalTree.Tree.Printer

/-!
# Running a command

A run sets up diagnostics, reads the response and the source, decodes and normalizes, and then
writes: the rendered tree and a line break to the standard output, or the fault to the standard
error. Nothing is written before it is settled which of the two it will be.

Reading the arguments, wording what is wrong with a text that is no response, and writing
diagnostics are left to libraries.
-/

namespace CanonicalTree.Cli

/-- The libraries that a run relies on. -/
structure Library (σ : Type) where
  /-- What the arguments ask for, the name of the program included. -/
  arguments : List SystemString → Except Notice Command
  /-- How a fault is worded that is found in decoding a text. -/
  complaint : Bytes → DecodeFault → String
  /-- The library for diagnostics. -/
  diagnostics : Telemetry.Library σ

/-- What a run can read. -/
structure Inputs where
  /-- The standard input. -/
  stdin : Except IoFault Bytes
  /-- The content of a file. -/
  file : SystemString → Except IoFault Bytes

/-- Why a run failed. -/
inductive RunFault where
  /-- The arguments are mistaken, in the words of the library that reads them. -/
  | usage (text : String)
  /-- Diagnostics could not be set up. -/
  | telemetry (fault : Telemetry.Fault)
  /-- The standard input could not be read. -/
  | stdin (fault : IoFault)
  /-- A file could not be read. -/
  | file (name : SystemString) (fault : IoFault)
  /-- The response could not be decoded. -/
  | response (fault : ResponseFault)
  /-- The response could not be normalized. -/
  | normalize (fault : NormalizeFault)
  /-- The tree could not be written. -/
  | output (fault : IoFault)
  deriving DecidableEq

/-- The fault in words. -/
def RunFault.message : RunFault → String
  | .usage text => text
  | .telemetry fault => "failed to initialise telemetry: " ++ fault.message
  | .stdin fault => "failed to read native response from stdin: " ++ fault.message
  | .file name fault => "failed to read " ++ name.display ++ ": " ++ fault.message
  | .response fault => fault.message
  | .normalize fault => fault.message
  | .output fault => "failed to write output: " ++ fault.message

/-- The content of a file. -/
def readFile (inputs : Inputs) (name : SystemString) : Except RunFault Bytes :=
  match inputs.file name with
  | .ok content => .ok content
  | .error fault => .error (.file name fault)

/-- The content of the standard input. -/
def readStdin (inputs : Inputs) : Except RunFault Bytes :=
  match inputs.stdin with
  | .ok content => .ok content
  | .error fault => .error (.stdin fault)

/-- The response that a command names. -/
def readResponse (inputs : Inputs) (command : Command) : Except RunFault Bytes :=
  if command.readsStdin then readStdin inputs else readFile inputs command.input

/-- Decode a response. -/
def decodeResponse (complaint : Bytes → DecodeFault → String) (bytes : Bytes) :
    Except RunFault Response :=
  match Response.decode (complaint bytes) bytes with
  | .ok response => .ok response
  | .error fault => .error (.response fault)

/-- Normalize a response as a command asks. -/
def normalizeResponse (command : Command) (response : Response) (source : Bytes) :
    Except RunFault Node :=
  let profile := Profile.standard command.unit
  match profile.normalizeResponse command.mode response ⟨source, command.encoding⟩ with
  | .ok tree => .ok tree
  | .error fault => .error (.normalize fault)

/-- The tree that a command asks for. -/
def normalizedTree (complaint : Bytes → DecodeFault → String) (inputs : Inputs)
    (command : Command) : Except RunFault Node := do
  let bytes ← readResponse inputs command
  let source ← readFile inputs command.source
  let response ← decodeResponse complaint bytes
  normalizeResponse command response source

/-- The tree as a command wants it written. -/
def render (command : Command) (tree : Node) : String :=
  if command.pretty then tree.toJson.pretty else tree.toJson.text

/-- What a run has to say. -/
inductive Answer where
  /-- A text that was asked for, such as the help. -/
  | notice (text : String)
  /-- The rendered tree. -/
  | tree (text : String)
  | failed (fault : RunFault)
  deriving DecidableEq

section Libraries

variable {σ : Type} (library : Library σ) (process : Telemetry.Process σ)

/-- Carry out a command. -/
def execute (inputs : Inputs) (command : Command) : Answer × Telemetry.Process σ :=
  match process.initialise library.diagnostics command.log with
  | (.error fault, process) => (.failed (.telemetry fault), process)
  | (.ok _, process) =>
    match normalizedTree library.complaint inputs command with
    | .ok tree => (.tree (render command tree), process)
    | .error fault => (.failed fault, process)

/-- What the program has to say to its arguments. -/
def answer (inputs : Inputs) (arguments : List SystemString) : Answer × Telemetry.Process σ :=
  match library.arguments arguments with
  | .ok command => execute library process inputs command
  | .error notice =>
    (if notice.mistaken then .failed (.usage notice.text) else .notice notice.text, process)

end Libraries

/-- Faults of the streams that a run writes to. -/
structure Outputs where
  stdout : Option IoFault := none
  stderr : Option IoFault := none

/-- What a run leaves behind. -/
structure Outcome where
  /-- Whether the run succeeded. -/
  success : Bool
  /-- What was written to the standard output. -/
  stdout : String := ""
  /-- What was written to the standard error. -/
  stderr : String := ""
  deriving DecidableEq

/-- Report a fault, if the standard error takes it. -/
def report (outputs : Outputs) (fault : RunFault) : Outcome :=
  match outputs.stderr with
  | some _ => { success := false }
  | none => { success := false, stderr := "uast: " ++ fault.message ++ "\n" }

/-- Show a text, if the standard output takes it. -/
def display (outputs : Outputs) (text : String) : Outcome :=
  match outputs.stdout with
  | some _ => { success := false }
  | none => { success := true, stdout := text }

/-- Write an answer. -/
def Answer.deliver (outputs : Outputs) : Answer → Outcome
  | .notice text => display outputs text
  | .tree text =>
    match outputs.stdout with
    | some fault => report outputs (.output fault)
    | none => { success := true, stdout := text ++ "\n" }
  | .failed fault => report outputs fault

/-- Run the program: what it leaves behind, and what becomes of the process. -/
def run {σ : Type} (library : Library σ) (process : Telemetry.Process σ) (inputs : Inputs)
    (outputs : Outputs) (arguments : List SystemString) : Outcome × Telemetry.Process σ :=
  let (answer, process) := answer library process inputs arguments
  (answer.deliver outputs, process)

end CanonicalTree.Cli
