import CanonicalTree.Failure
import CanonicalTree.Json.Printer

/-!
# Repairs

Some native shapes have no place in a tree, for example a bare sequence of strings. A repair
changes such a record before it is looked at, or refuses it. Repairs run in order on every record
that conversion visits; the first that refuses ends the run.

A repair that adds a record to a record is given that record too, and adds to it again. `reach`
bounds how far such a repair can nest the records it adds before it must fail or go on forever: it
counts the records and sequences of the value that it adds. It is no part of what the repair does,
and only says how many levels conversion is given; the outcome does not depend on it once it
suffices (`Schema.convert_withReach`).
-/

namespace CanonicalTree

/-- A change that is made to every record before it is converted. -/
structure Repair where
  /-- The name by which failures refer to it. -/
  name : String
  /-- The changed record, or the reason to refuse it. -/
  run : Record → Except RepairFault Record
  /-- The number of records and sequences in what the repair adds to a record. It only serves to
  find the number of levels. -/
  reach : Nat := 0

namespace Repair

/-- The flags of a sequence as a record that maps each to `true`, a repeated one at its first place.
The first entry that is no string refuses the sequence; `i` is the index of the first entry. -/
def flagSet (field : String) (i : Nat) (done : Record) : List Json → Except RepairFault Record
  | [] => .ok done
  | .str flag :: rest => flagSet field (i + 1) (Fields.insert done flag (.bool true)) rest
  | other :: _ =>
    .error ⟨field, "entry " ++ toString i ++ " is not a string: " ++ other.text⟩

/-- Turn the sequence of flags under `field` into a record; any other value is left alone. -/
def flags (field : String) : Repair where
  name := "flags_to_set"
  run record :=
    match Fields.get? record field with
    | some (.arr entries) => do
      let set ← flagSet field 0 [] entries
      pure (Fields.insert record field (.obj set))
    | _ => .ok record

/-- Refuse every record that has `field`. -/
def reject (name field detail : String) : Repair where
  name := name
  run record := if Fields.contains record field then .error ⟨field, detail⟩ else .ok record

/-- Store `value` under `field`. -/
def set (name field : String) (value : Json) : Repair where
  name := name
  run record := .ok (Fields.insert record field value)
  reach := value.containers

/-- Remove `field`. -/
def drop (name field : String) : Repair where
  name := name
  run record := .ok (Fields.erase record field)

/-- Run repairs one after the other; a refusal is a failure at the record. -/
def runAll (repairs : List Repair) (record : Record) : Except Failure Record :=
  match repairs with
  | [] => .ok record
  | repair :: rest =>
    match repair.run record with
    | .ok repaired => runAll rest repaired
    | .error fault => .error (.here (.repair repair.name fault))

/-- The reach of repairs that run one after the other. -/
def totalReach (repairs : List Repair) : Nat :=
  repairs.foldr (fun repair total => repair.reach + total) 0

end Repair

end CanonicalTree
