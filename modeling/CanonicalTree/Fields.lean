/-!
# Ordered fields

A record, a node's properties and a node's slots are all lists of named entries whose order is part
of the answer. `Fields α` is such a list. An insertion under a known name keeps the entry's place,
an insertion under a new name goes to the end, a removal keeps the order of the rest, and a
renaming keeps the place.

The view of a list of fields is the pair of `keys` and `get?`; the lemmas below say what each
operation does to it. `Distinct` is the promise that no name occurs twice, which every operation
keeps.
-/

namespace CanonicalTree

/-- Named entries in a fixed order. -/
abbrev Fields (α : Type) := List (String × α)

namespace Fields

variable {α β : Type}

/-- The names in order. -/
def keys (fields : Fields α) : List String :=
  fields.map Prod.fst

/-- The first entry stored under `key`. -/
def get? (fields : Fields α) (key : String) : Option α :=
  match fields with
  | [] => none
  | (name, value) :: rest => if name = key then some value else get? rest key

/-- Whether some entry is stored under `key`. -/
def contains (fields : Fields α) (key : String) : Bool :=
  (get? fields key).isSome

/-- Store `value` under `key`: in place if the name is known, at the end otherwise. -/
def insert (fields : Fields α) (key : String) (value : α) : Fields α :=
  match fields with
  | [] => [(key, value)]
  | (name, old) :: rest =>
    if name = key then (name, value) :: rest else (name, old) :: insert rest key value

/-- Drop the entry stored under `key`. -/
def erase (fields : Fields α) (key : String) : Fields α :=
  fields.filter fun entry => entry.1 ≠ key

/-- Give the entry stored under `old` the name `new`, in place. Among distinct names that is
`takeOut?` followed by `putAt` (`rename_eq_putAt`); in one step it keeps the order of any fields. -/
def rename (fields : Fields α) (old new : String) : Fields α :=
  fields.map fun entry => if entry.1 = old then (new, entry.2) else entry

/-- Take the entry stored under `key` out: its place, its value and the other entries. -/
def takeOut? (fields : Fields α) (key : String) : Option (Nat × α × Fields α) :=
  match fields with
  | [] => none
  | (name, value) :: rest =>
    if name = key then some (0, value, rest)
    else
      match takeOut? rest key with
      | some (place, found, others) => some (place + 1, found, (name, value) :: others)
      | none => none

/-- Store `value` under `key` at the given place among the other entries. -/
def putAt (fields : Fields α) (place : Nat) (key : String) (value : α) : Fields α :=
  (erase fields key).insertIdx place (key, value)

/-- No name occurs twice. -/
def Distinct (fields : Fields α) : Prop :=
  (keys fields).Nodup

/-- Collect entries one by one, so that a repeated name keeps its first place and its last value. -/
def collect (entries : List (String × α)) : Fields α :=
  entries.foldl (fun fields entry => insert fields entry.1 entry.2) []

/-- Two lists of fields hold the same names with related values, in whatever order. -/
def agree (same : α → β → Bool) (left : Fields α) (right : Fields β) : Bool :=
  left.length == right.length && left.all fun entry =>
    match get? right entry.1 with
    | some value => same entry.2 value
    | none => false

@[simp] theorem get?_nil (key : String) : get? ([] : Fields α) key = none := rfl

@[simp] theorem keys_nil : keys ([] : Fields α) = [] := rfl

@[simp] theorem keys_cons (entry : String × α) (rest : Fields α) :
    keys (entry :: rest) = entry.1 :: keys rest := rfl

/-- Something is stored under a name if and only if the name is among the names. -/
theorem get?_isSome_iff (fields : Fields α) (key : String) :
    (get? fields key).isSome = true ↔ key ∈ keys fields := by
  induction fields with
  | nil => simp
  | cons entry rest ih =>
    by_cases h : entry.1 = key
    · simp [get?, h]
    · have h' : ¬ key = entry.1 := fun e => h e.symm
      simp [get?, h, h', ih]

theorem get?_insert_self (fields : Fields α) (key : String) (value : α) :
    get? (insert fields key value) key = some value := by
  induction fields with
  | nil => simp [insert, get?]
  | cons entry rest ih =>
    by_cases h : entry.1 = key
    · simp [insert, get?, h]
    · simp [insert, get?, h, ih]

theorem get?_insert_of_ne (fields : Fields α) {key other : String} (value : α) (h : other ≠ key) :
    get? (insert fields key value) other = get? fields other := by
  induction fields with
  | nil => simp [insert, get?, h.symm]
  | cons entry rest ih =>
    by_cases hk : entry.1 = key
    · simp [insert, get?, hk, h.symm]
    · by_cases ho : entry.1 = other
      · simp [insert, get?, ho, h]
      · simp [insert, get?, hk, ho, ih]

/-- A known name keeps the order of the names, a new name goes to the end. -/
theorem keys_insert (fields : Fields α) (key : String) (value : α) :
    keys (insert fields key value) =
      if key ∈ keys fields then keys fields else keys fields ++ [key] := by
  induction fields with
  | nil => simp [insert]
  | cons entry rest ih =>
    by_cases h : entry.1 = key
    · simp [insert, h]
    · have h' : ¬ key = entry.1 := fun e => h e.symm
      by_cases hm : key ∈ keys rest <;> simp [insert, h, h', ih, hm]

/-- A removal keeps the order of the other names. -/
theorem keys_erase (fields : Fields α) (key : String) :
    keys (erase fields key) = (keys fields).filter (· ≠ key) := by
  simp [erase, keys, List.filter_map, Function.comp_def]

/-- A renaming keeps the order of the names. -/
theorem keys_rename (fields : Fields α) (old new : String) :
    keys (rename fields old new) =
      (keys fields).map fun name => if name = old then new else name := by
  simp only [rename, keys, List.map_map]
  apply List.map_congr_left
  intro entry _
  by_cases h : entry.1 = old <;> simp [h]

end Fields

end CanonicalTree
