import CanonicalTree.Json.Basic

/-!
# Points and spans

A point is a byte offset into the source together with a line and a column, as far as they are
known; both count from one. A span is a starting point and perhaps an end.
-/

namespace CanonicalTree

/-- A place in the source. -/
structure Point where
  /-- The byte offset. -/
  offset : UInt64
  /-- The line, counted from one. -/
  line : Option UInt32 := none
  /-- The column, counted from one. -/
  column : Option UInt32 := none
  deriving DecidableEq

/-- A stretch of the source. -/
structure Span where
  /-- Where it starts. -/
  start : Point
  /-- Where it ends, if that is known. -/
  stop : Option Point := none
  deriving DecidableEq

namespace Point

/-- Whether both line and column are known. -/
def isResolved (point : Point) : Bool :=
  point.line.isSome && point.column.isSome

/-- The point as a JSON value; what is unknown is left out. -/
def toJson (point : Point) : Json :=
  .obj <|
    ("offset", .num (.whole point.offset)) ::
      (match point.line with
        | some line => [("line", .num (.whole line.toUInt64))]
        | none => []) ++
      (match point.column with
        | some column => [("column", .num (.whole column.toUInt64))]
        | none => [])

end Point

namespace Span

/-- The points of a span in order. -/
def points (span : Span) : List Point :=
  span.start :: span.stop.toList

/-- The span as a JSON value; an unknown end is left out. -/
def toJson (span : Span) : Json :=
  .obj <|
    ("start", span.start.toJson) ::
      (match span.stop with
        | some stop => [("end", stop.toJson)]
        | none => [])

end Span

end CanonicalTree
