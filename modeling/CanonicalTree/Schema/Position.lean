import CanonicalTree.Schema.Basic
import CanonicalTree.Schema.Fault
import CanonicalTree.Tree.Span

/-!
# Positions of native records

The position of a node is read from up to six fields of its record. A field that is missing or
`null` says nothing. The others must be whole numbers, lines and columns from one up to `2 ^ 32 -
1`. Nothing else may be given without a start offset, no line or column of the end without an end
offset, and the end must not lie before the start.
-/

namespace CanonicalTree.Schema

/-- The whole number stored under `key`. -/
def word (record : Record) (key : Option String) : Except Failure (Option UInt64) :=
  match key with
  | none => .ok none
  | some key =>
    match Fields.get? record key with
    | none => .ok none
    | some .null => .ok none
    | some (.num (.whole n)) => .ok (some n)
    | some (.num number) => .error (PositionFault.failure key (.notWhole number))
    | some other => .error (PositionFault.failure key (.notNumber other))

/-- The line or column stored under `key`. -/
def lineOrColumn (record : Record) (key : Option String) : Except Failure (Option UInt32) :=
  match word record key with
  | .error failure => .error failure
  | .ok none => .ok none
  | .ok (some n) =>
    if n = 0 then .error (PositionFault.failure (key.getD "") .zero)
    else if n.toNat < UInt32.size then .ok (some n.toUInt32)
    else .error (PositionFault.failure (key.getD "") (.tooLarge n))

/-- The name of the first field that says something. -/
def firstPresent (fields : List (Bool × Option String)) : Option String :=
  fields.findSome? fun field => if field.1 then field.2 else none

/-- What the six positional fields of a record say. -/
structure Reading where
  /-- The byte offset of the start. -/
  offset : Option UInt64
  /-- The byte offset of the end. -/
  endOffset : Option UInt64
  /-- The line of the start. -/
  line : Option UInt32
  /-- The column of the start. -/
  column : Option UInt32
  /-- The line of the end. -/
  endLine : Option UInt32
  /-- The column of the end. -/
  endColumn : Option UInt32

/-- Read the positional fields, in the order in which faults are reported. -/
def reading (keys : Keys) (record : Record) : Except Failure Reading := do
  let offset ← word record keys.offset
  let endOffset ← word record keys.endOffset
  let line ← lineOrColumn record keys.line
  let column ← lineOrColumn record keys.column
  let endLine ← lineOrColumn record keys.endLine
  let endColumn ← lineOrColumn record keys.endColumn
  pure ⟨offset, endOffset, line, column, endLine, endColumn⟩

/-- The end that a reading describes, given where it starts. -/
def Reading.stop (keys : Keys) (r : Reading) (start : UInt64) : Except Failure (Option Point) :=
  match r.endOffset with
  | some stop =>
    if stop < start then
      .error (PositionFault.failure (keys.endOffset.getD "") (.reversed stop start))
    else .ok (some ⟨stop, r.endLine, r.endColumn⟩)
  | none =>
    match firstPresent [(r.endLine.isSome, keys.endLine), (r.endColumn.isSome, keys.endColumn)] with
    | some key => .error (PositionFault.failure key .withoutEnd)
    | none => .ok none

/-- The span that a reading describes. -/
def Reading.span (keys : Keys) (r : Reading) : Except Failure (Option Span) :=
  match r.offset with
  | some start => do
    let stop ← r.stop keys start
    pure (some ⟨⟨start, r.line, r.column⟩, stop⟩)
  | none =>
    match firstPresent
        [(r.endOffset.isSome, keys.endOffset), (r.line.isSome, keys.line),
          (r.column.isSome, keys.column), (r.endLine.isSome, keys.endLine),
          (r.endColumn.isSome, keys.endColumn)] with
    | some key => .error (PositionFault.failure key .withoutStart)
    | none => .ok none

/-- The position of the node that a record describes. -/
def position (keys : Keys) (record : Record) : Except Failure (Option Span) := do
  let r ← reading keys record
  r.span keys

end CanonicalTree.Schema
