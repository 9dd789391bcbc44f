import CanonicalTree.Path

/-!
# Failures

Every stage stops at the first fault. A failure says what went wrong and where: the path leads to
the offending node. Functions that descend into a value report failures relative to it, and
`within` puts the step that was taken in front, so that a path never has to be handed down.
-/

namespace CanonicalTree

/-- The stages of normalization. -/
inductive Stage where
  /-- Repairing a record. -/
  | repair
  /-- Making nodes of records. -/
  | convert
  /-- Completing positions. -/
  | position
  /-- Applying rules. -/
  | rules
  deriving DecidableEq

namespace Stage

/-- The name of a stage. -/
def name : Stage → String
  | .repair => "fixup"
  | .convert => "convert"
  | .position => "position"
  | .rules => "rewrite"

/-- The stage with the given name. -/
def ofName? (name : String) : Option Stage :=
  [Stage.repair, .convert, .position, .rules].find? (·.name = name)

end Stage

/-- Why a record could not be repaired. -/
structure RepairFault where
  /-- The offending field. -/
  field : String
  /-- What is wrong with it. -/
  detail : String
  deriving DecidableEq

/-- The fault in words. -/
def RepairFault.message (fault : RepairFault) : String :=
  "field '" ++ fault.field ++ "': " ++ fault.detail

/-- What went wrong. -/
inductive Cause where
  /-- A value has a shape that no tree can be made of. -/
  | invalidShape (message : String)
  /-- A record that should be a node has no kind. -/
  | missingKind (field : String)
  /-- A position is unusable. -/
  | invalidPosition (stage : Stage) (field message : String)
  /-- An offset lies behind the end of the source. -/
  | offsetOutOfRange (offset length : Nat)
  /-- A repair refused a record. -/
  | repair (name : String) (fault : RepairFault)
  /-- A matching rule could not build its result. -/
  | ruleApplication (phase : String) (index : Nat) (rule message : String)
  /-- The levels of conversion have run out, because repairs keep adding records to the records they
  are given. Conversion without a bound would not return here; the cause is never given for repairs
  that make no record deeper (`Schema.convert_returns`). -/
  | endlessRepair
  deriving DecidableEq

/-- What went wrong and where. -/
structure Failure where
  /-- The path of the offending node. -/
  path : Path
  /-- What went wrong. -/
  cause : Cause
  deriving DecidableEq

namespace Failure

/-- A failure at the place where it is found. -/
def here (cause : Cause) : Failure := ⟨Path.root, cause⟩

/-- The failure as seen from one step further out. -/
def under (segment : Segment) (failure : Failure) : Failure :=
  { failure with path := segment :: failure.path }

/-- The stage that failed. -/
def stage (failure : Failure) : Stage :=
  match failure.cause with
  | .invalidShape _ => .convert
  | .missingKind _ => .convert
  | .invalidPosition stage _ _ => stage
  | .offsetOutOfRange _ _ => .position
  | .repair _ _ => .repair
  | .ruleApplication _ _ _ _ => .rules
  | .endlessRepair => .repair

/-- The failure in words. -/
def message (failure : Failure) : String :=
  let path := failure.path.text
  match failure.cause with
  | .invalidShape message => "invalid shape at " ++ path ++ ": " ++ message
  | .missingKind field => "missing kind field '" ++ field ++ "' at " ++ path
  | .invalidPosition _ field message =>
    "invalid position field '" ++ field ++ "' at " ++ path ++ ": " ++ message
  | .offsetOutOfRange offset length =>
    "offset " ++ toString offset ++ " at " ++ path ++ " exceeds source length " ++ toString length
  | .repair name fault => "fixup '" ++ name ++ "' failed at " ++ path ++ ": " ++ fault.message
  | .ruleApplication phase index rule message =>
    "rule #" ++ toString index ++ " '" ++ rule ++ "' of phase '" ++ phase ++ "' failed at " ++
      path ++ ": " ++ message
  | .endlessRepair => "fixups nest records without end at " ++ path

end Failure

/-- The result of a step into a part, with failures reported from the whole. -/
def within {α : Type} (segment : Segment) (result : Except Failure α) : Except Failure α :=
  match result with
  | .ok value => .ok value
  | .error failure => .error (failure.under segment)

@[simp] theorem within_ok {α : Type} (segment : Segment) (value : α) :
    within segment (.ok value) = .ok value := rfl

@[simp] theorem within_error {α : Type} (segment : Segment) (failure : Failure) :
    within (α := α) segment (.error failure) = .error (failure.under segment) := rfl

/-- A step that is put in front of paths does not change results. -/
theorem within_eq_ok_iff {α : Type} {segment : Segment} {result : Except Failure α} {value : α} :
    within segment result = .ok value ↔ result = .ok value := by
  cases result <;> simp

end CanonicalTree
