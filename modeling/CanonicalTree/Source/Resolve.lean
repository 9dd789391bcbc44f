import CanonicalTree.Source.Cursor
import CanonicalTree.Tree.Basic

/-!
# Resolving positions

A resolver completes the points of a tree: it looks up the line and column of every offset. Under
`fillMissing` a point that has both is only checked; under `recompute` every point is looked up. A
point with only one of the two is looked up under either policy.

The tree is visited in the order in which sources are read: the start of a node, its children, its
end.
-/

namespace CanonicalTree

/-- Which points are looked up. -/
inductive ResolvePolicy where
  | fillMissing
  | recompute
  deriving DecidableEq

namespace ResolvePolicy

/-- All policies. -/
def all : List ResolvePolicy := [.fillMissing, .recompute]

/-- The name of a policy. -/
def name : ResolvePolicy → String
  | .fillMissing => "fill-missing"
  | .recompute => "recompute"

/-- The policy with the given name. -/
def ofName? (name : String) : Option ResolvePolicy :=
  all.find? (·.name = name)

end ResolvePolicy

/-- How the points of a tree are completed. -/
structure Resolver where
  /-- What columns count. -/
  unit : ColumnUnit := .byte
  /-- Which points are looked up. -/
  policy : ResolvePolicy := .fillMissing
  deriving DecidableEq

namespace Resolver

/-- Whether a point is taken as it is. -/
def trusts (resolver : Resolver) (point : Point) : Bool :=
  resolver.policy = .fillMissing && point.isResolved

/-- Complete a point. -/
def point (resolver : Resolver) (source : Source) (field : String) (cursor : Cursor)
    (point : Point) : Except Failure (Point × Cursor) := do
  if resolver.trusts point then
    source.check field point.offset.toNat
    pure (point, cursor)
  else
    let (answer, cursor) := cursor.locate source resolver.unit field point.offset.toNat
    let location ← answer
    pure ({ point with line := some location.line, column := some location.column }, cursor)

/-- Complete the start of a position. -/
def start (resolver : Resolver) (source : Source) (cursor : Cursor) (position : Option Span) :
    Except Failure (Option Span × Cursor) :=
  match position with
  | none => .ok (none, cursor)
  | some span => do
    let (point, cursor) ← resolver.point source "start" cursor span.start
    pure (some { span with start := point }, cursor)

/-- Complete the end of a position. -/
def stop (resolver : Resolver) (source : Source) (cursor : Cursor) (position : Option Span) :
    Except Failure (Option Span × Cursor) :=
  match position with
  | none => .ok (none, cursor)
  | some span =>
    match span.stop with
    | none => .ok (some span, cursor)
    | some stop => do
      let (point, cursor) ← resolver.point source "end" cursor stop
      pure (some { span with stop := some point }, cursor)

mutual

/-- Complete all points of a node. -/
def node (resolver : Resolver) (source : Source) (cursor : Cursor) :
    Node → Except Failure (Node × Cursor)
  | ⟨kind, token, position, properties, slots⟩ => do
    let (started, cursor) ← resolver.start source cursor position
    let (slots, cursor) ← resolver.slots source cursor slots
    let (stopped, cursor) ← resolver.stop source cursor started
    pure (⟨kind, token, stopped, properties, slots⟩, cursor)

/-- Complete all points in these slots. -/
def slots (resolver : Resolver) (source : Source) (cursor : Cursor) :
    List (String × Slot) → Except Failure (List (String × Slot) × Cursor)
  | [] => .ok ([], cursor)
  | (name, slot) :: rest => do
    let (slot, cursor) ← within (.field name) (resolver.slot source cursor slot)
    let (rest, cursor) ← resolver.slots source cursor rest
    pure ((name, slot) :: rest, cursor)

/-- Complete all points in this slot. -/
def slot (resolver : Resolver) (source : Source) (cursor : Cursor) :
    Slot → Except Failure (Slot × Cursor)
  | .single child => do
    let (child, cursor) ← resolver.node source cursor child
    pure (.single child, cursor)
  | .sequence children => do
    let (children, cursor) ← resolver.nodes source cursor 0 children
    pure (.sequence children, cursor)

/-- Complete all points of these nodes, the first of which stands at index `i`. -/
def nodes (resolver : Resolver) (source : Source) (cursor : Cursor) (i : Nat) :
    List Node → Except Failure (List Node × Cursor)
  | [] => .ok ([], cursor)
  | child :: rest => do
    let (child, cursor) ← within (.index i) (resolver.node source cursor child)
    let (rest, cursor) ← resolver.nodes source cursor (i + 1) rest
    pure (child :: rest, cursor)

end

/-- Complete the points of a tree against its source. -/
def resolve (resolver : Resolver) (source : Source) (tree : Node) : Except Failure Node := do
  let (tree, _) ← resolver.node source {} tree
  pure tree

end Resolver

end CanonicalTree
