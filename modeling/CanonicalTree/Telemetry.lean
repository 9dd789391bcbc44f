import CanonicalTree.Json.Basic

/-!
# Telemetry

Diagnostics are written in one format for the whole life of a process: the first successful call of
`Process.initialise` installs it, and later calls only check their filter. What counts as a filter,
and whether a subscriber is taken, is up to the library that writes the diagnostics.
-/

namespace CanonicalTree

/-- The formats in which diagnostics are written. -/
inductive LogFormat where
  | json
  | compact
  deriving DecidableEq

namespace LogFormat

/-- All formats. -/
def all : List LogFormat := [.json, .compact]

/-- The name of a format. -/
def name : LogFormat → String
  | .json => "json"
  | .compact => "compact"

/-- The format with the given name. -/
def ofName? (name : String) : Option LogFormat :=
  all.find? (·.name = name)

/-- The format that a text names, in upper or lower case. -/
def parse? (text : String) : Option LogFormat :=
  ofName? text.toLower

end LogFormat

/-- How diagnostics are written. -/
structure LogConfig where
  /-- The format. -/
  format : LogFormat := .compact
  /-- Which events are written. -/
  filter : String := "warn"
  deriving DecidableEq

namespace LogConfig

/-- The configuration as a JSON value. -/
def toJson (config : LogConfig) : Json :=
  .obj [("log_format", .str config.format.name), ("log_filter", .str config.filter)]

/-- The configuration that the two values spell. -/
def ofParts? (format filter : Json) : Option LogConfig := do
  let name ← format.name?
  let format ← LogFormat.ofName? name
  let filter ← filter.asString?
  pure ⟨format, filter⟩

/-- The configuration that a JSON value spells: a record that has both fields, or a sequence of the
two. -/
def ofJson? : Json → Option LogConfig
  | .obj fields => do
    let format ← Fields.get? fields "log_format"
    let filter ← Fields.get? fields "log_filter"
    ofParts? format filter
  | .arr [format, filter] => ofParts? format filter
  | _ => none

end LogConfig

/-- What a process has installed for its diagnostics. -/
structure Telemetry where
  /-- The installed format. -/
  installed : Option LogFormat := none
  deriving DecidableEq

namespace Telemetry

/-- The library through which a process writes its diagnostics. All events go to one subscriber; `σ`
is what the library knows of it. -/
structure Library (σ : Type) where
  /-- Whether a text is a filter. -/
  parses : String → Bool
  /-- What is said of a text that is no filter. -/
  complaint : String → String
  /-- Install a subscriber, unless the library refuses it and says why. -/
  install : LogConfig → σ → Except String Unit × σ

/-- What a successful call reports. -/
structure Report where
  /-- The format in use. -/
  format : LogFormat
  /-- Whether this call installed it. -/
  installedNow : Bool
  deriving DecidableEq

/-- A filter that is none. -/
structure FilterFault where
  filter : String
  /-- What the library says of it. -/
  reason : String
  deriving DecidableEq

/-- The fault in words. -/
def FilterFault.message (fault : FilterFault) : String :=
  "invalid log filter '" ++ fault.filter ++ "': " ++ fault.reason

/-- Why diagnostics could not be set up. -/
inductive Fault where
  /-- The filter is none. -/
  | filter (fault : FilterFault)
  /-- The library refused the subscriber. -/
  | install (reason : String)
  deriving DecidableEq

/-- The fault in words. -/
def Fault.message : Fault → String
  | .filter fault => fault.message
  | .install reason => "failed to install diagnostics subscriber: " ++ reason

variable {σ : Type}

/-- Check the filter, and settle the format if none is settled yet. -/
def initialiseWith (library : Library σ) (telemetry : Telemetry) (config : LogConfig) :
    Except FilterFault (Report × Telemetry) :=
  if library.parses config.filter then
    match telemetry.installed with
    | some format => .ok (⟨format, false⟩, telemetry)
    | none => .ok (⟨config.format, true⟩, ⟨some config.format⟩)
  else .error ⟨config.filter, library.complaint config.filter⟩

/-- What a call of `initialise` can change. -/
structure Process (σ : Type) where
  /-- The format that has been installed. -/
  telemetry : Telemetry := {}
  /-- What the library knows of the subscriber. -/
  subscriber : σ
  deriving DecidableEq

/-- Check the filter, and install a subscriber if the process has none yet. The format is settled
only when the library has taken the subscriber. -/
def Process.initialise (library : Library σ) (process : Process σ) (config : LogConfig) :
    Except Fault Report × Process σ :=
  match process.telemetry.initialiseWith library config with
  | .error fault => (.error (.filter fault), process)
  | .ok (report, telemetry) =>
    if report.installedNow then
      match library.install config process.subscriber with
      | (.ok (), subscriber) => (.ok report, ⟨telemetry, subscriber⟩)
      | (.error reason, subscriber) => (.error (.install reason), { process with subscriber })
    else (.ok report, process)

end Telemetry

end CanonicalTree
