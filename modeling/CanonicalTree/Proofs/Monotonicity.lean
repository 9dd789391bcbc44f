import CanonicalTree.Proofs.Independence
import CanonicalTree.Proofs.Text
import Mathlib.Data.Prod.Lex

/-!
# Locations in the order of offsets

The line of an offset counts line ends from the beginning of the source, but its column starts again
on every line. Still, a later offset never has an earlier place, where places are compared by line
and then by column: either there is a line end between the two offsets, and the line grows, or there
is none, and both columns are counted from the same line start. If columns count bytes or code
units, different offsets also have different places. Resolution that looks up every point hands
these facts on to whole trees, in whatever order their points are visited
(`Resolver.resolve_monotone`).
-/

namespace CanonicalTree

/-- The line and the column, to be compared in this order. -/
def Location.place (location : Location) : ℕ ×ₗ ℕ :=
  toLex (location.line.toNat, location.column.toNat)

namespace Source

variable {source : Source} {unit : ColumnUnit} {first second : Nat}

/-! ## Between two offsets -/

/-- Line ends add up where a source is cut. -/
theorem count_lineEnd_add (hfirst : source.Usable first) (hle : first ≤ second) :
    (source.units 0 first).count lineEnd + (source.units first second).count lineEnd =
      (source.units 0 second).count lineEnd := by
  rw [← units_append_units source.usable_zero hfirst (Nat.zero_le first) hle, List.count_append]

/-- Without a line end between them, two offsets are on the same line. -/
theorem lineStart_eq_of_count_eq_zero (hfirst : source.Usable first)
    (hsecond : source.Usable second) (hle : first ≤ second)
    (hcount : (source.units first second).count lineEnd = 0) :
    source.lineStart second = source.lineStart first := by
  have hbetween : ∀ u ∈ (source.units first second).reverse, (u ≠ lineEnd : Bool) := by
    intro u hu
    have hne : u ≠ lineEnd := by
      rintro rfl
      exact List.count_eq_zero.mp hcount (List.mem_reverse.mp hu)
    simpa using hne
  have hwidth := unitWidth_mul_length_units hfirst hsecond
  simp only [lineStart]
  rw [← units_append_units source.usable_zero hfirst (Nat.zero_le first) hle, List.reverse_append,
    List.takeWhile_append_of_pos hbetween, List.length_append, List.length_reverse, Nat.mul_add,
    hwidth]
  omega

/-- Bytes and code units are counted one by one. -/
theorem count_slice_pos (hunit : unit ≠ .codePoint) (hfirst : source.Usable first)
    (hsecond : source.Usable second) (hlt : first < second) :
    0 < unit.count source.encoding (source.slice first second) := by
  cases unit with
  | byte =>
    show 0 < (source.slice first second).length
    rw [length_slice source first hsecond.1]
    omega
  | codeUnit =>
    have hwidth := unitWidth_mul_length_units hfirst hsecond
    show 0 < (source.units first second).length
    by_contra hnone
    rw [Nat.eq_zero_of_not_pos hnone, Nat.mul_zero] at hwidth
    omega
  | codePoint => exact absurd rfl hunit

/-! ## Places -/

theorem length_units_le (hfirst : source.Usable first) (hsecond : source.Usable second) :
    (source.units first second).length ≤ second - first := by
  rw [← unitWidth_mul_length_units hfirst hsecond]
  exact Nat.le_mul_of_pos_left _ source.encoding.unitWidth_pos

/-- There are at most as many columns as bytes. -/
theorem count_slice_le (unit : ColumnUnit) (hfirst : source.Usable first)
    (hsecond : source.Usable second) :
    unit.count source.encoding (source.slice first second) ≤ second - first := by
  have hunits := length_units_le hfirst hsecond
  cases unit with
  | byte => exact (length_slice source first hsecond.1).le
  | codeUnit => exact hunits
  | codePoint => exact (List.length_filter_le _ _).trans hunits

/-- In a source that is not too long, nothing is cut from the counts. -/
theorem place_location (hsize : source.bytes.size < 2 ^ 32 - 1) (unit : ColumnUnit)
    (hoffset : source.Usable first) :
    (source.location unit first).place =
      toLex (1 + (source.units 0 first).count lineEnd,
        1 + unit.count source.encoding (source.slice (source.lineStart first) first)) := by
  obtain ⟨hstart, -, -, -⟩ := lineStart_cut hoffset
  have hlines : (source.units 0 first).count lineEnd ≤ first :=
    List.count_le_length.trans (length_units_le source.usable_zero hoffset)
  have hcolumns := count_slice_le unit hstart hoffset
  have hwithin : first ≤ source.bytes.size := hoffset.1
  obtain ⟨hline, hcolumn⟩ := Location.toNat_ofCounts (hlines.trans_lt (hwithin.trans_lt hsize))
    ((hcolumns.trans (Nat.sub_le _ _)).trans_lt (hwithin.trans_lt hsize))
  unfold Location.place location
  rw [hline, hcolumn]

/-- Behind a line end the line is a later one. -/
theorem place_lt_of_lineEnd (hsize : source.bytes.size < 2 ^ 32 - 1) (unit : ColumnUnit)
    (hfirst : source.Usable first) (hsecond : source.Usable second) (hle : first ≤ second)
    (hcount : (source.units first second).count lineEnd ≠ 0) :
    (source.location unit first).place < (source.location unit second).place := by
  have hlines := count_lineEnd_add hfirst hle
  rw [place_location hsize unit hfirst, place_location hsize unit hsecond, Prod.Lex.toLex_lt_toLex]
  left
  omega

/-- On the same line the columns between two offsets are added. -/
theorem place_eq_of_sameLine (hsize : source.bytes.size < 2 ^ 32 - 1) (unit : ColumnUnit)
    (hfirst : source.Usable first) (hsecond : source.Usable second) (hle : first ≤ second)
    (hcount : (source.units first second).count lineEnd = 0) :
    (source.location unit second).place =
      toLex ((source.location unit first).place.1, (source.location unit first).place.2 +
        unit.count source.encoding (source.slice first second)) := by
  obtain ⟨hstart, hstartle, -, -⟩ := lineStart_cut hfirst
  have hlines := count_lineEnd_add hfirst hle
  have hcolumns := count_add_count unit hstart hfirst hstartle hle
  rw [hcount, Nat.add_zero] at hlines
  rw [place_location hsize unit hfirst, place_location hsize unit hsecond,
    lineStart_eq_of_count_eq_zero hfirst hsecond hle hcount, ← hlines, ← hcolumns, ← Nat.add_assoc]
  rfl

/-- Later offsets do not lie at earlier places. -/
theorem place_le_place (hsize : source.bytes.size < 2 ^ 32 - 1) (unit : ColumnUnit)
    (hfirst : source.Usable first) (hsecond : source.Usable second) (hle : first ≤ second) :
    (source.location unit first).place ≤ (source.location unit second).place := by
  by_cases hcount : (source.units first second).count lineEnd = 0
  · rw [place_eq_of_sameLine hsize unit hfirst hsecond hle hcount]
    exact Prod.Lex.toLex_le_toLex.mpr (Or.inr ⟨rfl, Nat.le_add_right _ _⟩)
  · exact (place_lt_of_lineEnd hsize unit hfirst hsecond hle hcount).le

/-- Unless columns count characters, later offsets lie at later places. -/
theorem place_lt_place (hsize : source.bytes.size < 2 ^ 32 - 1) (hunit : unit ≠ .codePoint)
    (hfirst : source.Usable first) (hsecond : source.Usable second) (hlt : first < second) :
    (source.location unit first).place < (source.location unit second).place := by
  by_cases hcount : (source.units first second).count lineEnd = 0
  · have hpos := count_slice_pos hunit hfirst hsecond hlt
    rw [place_eq_of_sameLine hsize unit hfirst hsecond hlt.le hcount]
    exact Prod.Lex.toLex_lt_toLex.mpr (Or.inr ⟨rfl, Nat.lt_add_of_pos_right hpos⟩)
  · exact place_lt_of_lineEnd hsize unit hfirst hsecond hlt.le hcount

end Source

/-! ## Trees -/

/-- The place of a point whose line and column are both known. -/
def Point.place? (point : Point) : Option (ℕ ×ₗ ℕ) :=
  point.line.bind fun line => point.column.map fun column => Location.place ⟨line, column⟩

/-- All points of a tree. -/
def Node.points (tree : Node) : List Point :=
  tree.descendants.flatMap fun node => node.position.toList.flatMap Span.points

/-- The points of a tree are those of the positions of its nodes. -/
theorem Node.mem_points {tree : Node} {point : Point} :
    point ∈ tree.points ↔ ∃ node ∈ tree.descendants, ∃ span, node.position = some span ∧
      point ∈ span.points := by
  simp [points]

namespace Resolver

variable {resolver : Resolver} {source : Source} {tree result : Node}

/-- A recomputed point has the place of its offset. -/
theorem place?_completePoint (h : resolver.policy = .recompute) (point : Point) :
    (resolver.completePoint source point).place? =
      some (source.location resolver.unit point.offset.toNat).place := by
  rw [completePoint_of_recompute source h]
  rfl

/-- If every point is looked up, every point has the place of its offset. -/
theorem place?_of_mem_points (hpolicy : resolver.policy = .recompute)
    (hresolve : resolver.resolve source tree = .ok result) {point : Point}
    (hpoint : point ∈ result.points) :
    source.Usable point.offset.toNat ∧
      point.place? = some (source.location resolver.unit point.offset.toNat).place := by
  obtain ⟨husable, rfl⟩ := resolve_eq_ok hresolve
  obtain ⟨node, hnode, span, hspan, hmem⟩ := Node.mem_points.mp hpoint
  obtain ⟨given, hgiven, origin, horigin, rfl⟩ := Node.exists_position_of_mapSpans hnode hspan
  rw [points_complete] at hmem
  obtain ⟨unresolved, hunresolved, rfl⟩ := List.mem_map.mp hmem
  rw [offset_completePoint]
  exact ⟨husable given hgiven origin horigin unresolved hunresolved,
    place?_completePoint hpolicy unresolved⟩

/-- Resolution keeps the order of the ends of a position. -/
theorem start_le_stop_of_resolve (hresolve : resolver.resolve source tree = .ok result)
    (htree : ∀ node ∈ tree.descendants, ∀ span, node.position = some span → span.Ordered)
    {node : Node} {span : Span} {stop : Point} (hnode : node ∈ result.descendants)
    (hspan : node.position = some span) (hstop : span.stop = some stop) :
    span.start.offset ≤ stop.offset := by
  obtain ⟨-, rfl⟩ := resolve_eq_ok hresolve
  obtain ⟨given, hgiven, origin, horigin, rfl⟩ := Node.exists_position_of_mapSpans hnode hspan
  obtain ⟨unresolved, hunresolved, rfl⟩ := Option.map_eq_some_iff.mp hstop
  have hordered := htree given hgiven origin horigin
  show (resolver.completePoint source origin.start).offset ≤ _
  rw [offset_completePoint, offset_completePoint]
  exact hordered.start_le_stop unresolved hunresolved

/-- If every point of a converted tree is looked up, places follow offsets: of two points anywhere
in the result, the one with the smaller offset does not come after the other, and comes before it if
columns count bytes or code units, so that only equal offsets have the same line and column. In
particular no node starts after its end. -/
theorem resolve_monotone (schema : Schema) (unit : ColumnUnit) (source : Source) (raw : Json)
    (tree result : Node) (hsize : source.bytes.size < 2 ^ 32 - 1)
    (hconvert : schema.convert raw = .ok tree)
    (hresolve : ({ unit, policy := .recompute } : Resolver).resolve source tree = .ok result) :
    (∀ first ∈ result.points, ∀ second ∈ result.points, first.offset ≤ second.offset →
      ∃ place other, first.place? = some place ∧ second.place? = some other ∧ place ≤ other ∧
        (first.offset < second.offset → unit = .byte ∨ unit = .codeUnit → place < other)) ∧
    (unit = .byte ∨ unit = .codeUnit → ∀ first ∈ result.points, ∀ second ∈ result.points,
      first.offset ≠ second.offset → first.place? ≠ second.place?) ∧
    (∀ node ∈ result.descendants, ∀ span stop, node.position = some span → span.stop = some stop →
      ∃ place other, span.start.place? = some place ∧ stop.place? = some other ∧
        place ≤ other) := by
  have hcompare : ∀ first ∈ result.points, ∀ second ∈ result.points,
      first.offset ≤ second.offset →
      ∃ place other, first.place? = some place ∧ second.place? = some other ∧ place ≤ other ∧
        (first.offset < second.offset → unit = .byte ∨ unit = .codeUnit → place < other) := by
    intro first hfirst second hsecond hle
    obtain ⟨husable, hplace⟩ := place?_of_mem_points rfl hresolve hfirst
    obtain ⟨husable', hplace'⟩ := place?_of_mem_points rfl hresolve hsecond
    refine ⟨_, _, hplace, hplace', Source.place_le_place hsize unit husable husable' ?_, ?_⟩
    · exact UInt64.le_iff_toNat_le.mp hle
    · intro hlt hunit
      have hne : unit ≠ .codePoint := by
        rintro rfl
        simp at hunit
      exact Source.place_lt_place hsize hne husable husable' (UInt64.lt_iff_toNat_lt.mp hlt)
  refine ⟨hcompare, ?_, ?_⟩
  · intro hunit first hfirst second hsecond hne hsame
    have hnot : ∀ one ∈ result.points, ∀ other ∈ result.points, one.place? = other.place? →
        ¬ one.offset < other.offset := by
      intro one hone other hother hequal hlt
      obtain ⟨place, place', hplace, hplace', -, hstrict⟩ :=
        hcompare one hone other hother (UInt64.le_of_lt hlt)
      rw [hplace, hplace', Option.some.injEq] at hequal
      exact (hstrict hlt hunit).ne hequal
    rcases UInt64.lt_or_lt_of_ne hne with hlt | hlt
    · exact hnot first hfirst second hsecond hsame hlt
    · exact hnot second hsecond first hfirst hsame.symm hlt
  · intro node hnode span stop hspan hstop
    have hordered : ∀ part ∈ tree.descendants, ∀ given, part.position = some given →
        given.Ordered := fun part hpart => (Schema.convert_eq_ok hconvert part hpart).2
    have hle := start_le_stop_of_resolve hresolve hordered hnode hspan hstop
    have hstart : span.start ∈ result.points :=
      Node.mem_points.mpr ⟨node, hnode, span, hspan, List.mem_cons_self⟩
    have hend : stop ∈ result.points := by
      refine Node.mem_points.mpr ⟨node, hnode, span, hspan, List.mem_cons_of_mem _ ?_⟩
      exact Option.mem_toList.mpr hstop
    obtain ⟨place, other, hplace, hother, hplaces, -⟩ := hcompare _ hstart _ hend hle
    exact ⟨place, other, hplace, hother, hplaces⟩

/-- The letter `a`, a line end, a surrogate pair and the letter `b`. -/
def surrogateSource : Source :=
  ⟨#[0x61, 0, 0x0A, 0, 0x3D, 0xD8, 0, 0xDE, 0x62, 0], .utf16LE⟩

def offsetSchema : Schema where
  keys := { offset := some "pos", endOffset := some "end" }

/-- A block whose first name starts between the surrogates and whose second name lies before the
block. -/
def jumpingBlock : Json :=
  let node (kind : String) (start stop : UInt64) (rest : List (String × Json)) : Json :=
    .obj ([("kind", .str kind), ("pos", .num (.whole start)), ("end", .num (.whole stop))] ++ rest)
  node "block" 4 10 [("body", .arr [node "name" 6 8 [], node "name" 0 2 []])]

/-- The block as a tree, given its ends and those of the two names. -/
def jumpingTree (blockEnds firstEnds secondEnds : Point × Point) : Node :=
  let node (kind : String) (ends : Point × Point) (slots : Fields Slot) : Node :=
    { kind, position := some ⟨ends.1, some ends.2⟩, slots }
  node "block" blockEnds
    [("body", .sequence [node "name" firstEnds [], node "name" secondEnds []])]

/-- In code units all six offsets have different places. In code points the two ends of the first
name fall together, but they do not change places. -/
theorem resolve_monotone_jumpingBlock :
    let tree := jumpingTree ({ offset := 4 }, { offset := 10 }) ({ offset := 6 }, { offset := 8 })
      ({ offset := 0 }, { offset := 2 })
    let inUnits := jumpingTree (⟨4, some 2, some 1⟩, ⟨10, some 2, some 4⟩)
      (⟨6, some 2, some 2⟩, ⟨8, some 2, some 3⟩) (⟨0, some 1, some 1⟩, ⟨2, some 1, some 2⟩)
    let inPoints := jumpingTree (⟨4, some 2, some 1⟩, ⟨10, some 2, some 3⟩)
      (⟨6, some 2, some 2⟩, ⟨8, some 2, some 2⟩) (⟨0, some 1, some 1⟩, ⟨2, some 1, some 2⟩)
    offsetSchema.convert jumpingBlock = .ok tree ∧
    ({ unit := .codeUnit, policy := .recompute } : Resolver).resolve surrogateSource tree =
      .ok inUnits ∧
    (∀ first ∈ inUnits.points, ∀ second ∈ inUnits.points, first.offset ≠ second.offset →
      first.place? ≠ second.place?) ∧
    ({ unit := .codePoint, policy := .recompute } : Resolver).resolve surrogateSource tree =
      .ok inPoints ∧
    ∀ node ∈ inPoints.descendants, ∀ span stop, node.position = some span →
      span.stop = some stop →
        ∃ place other, span.start.place? = some place ∧ stop.place? = some other ∧
          place ≤ other := by
  intro tree inUnits inPoints
  have hsize : surrogateSource.bytes.size < 2 ^ 32 - 1 := by decide
  have hconvert : offsetSchema.convert jumpingBlock = .ok tree := rfl
  have hunits : ({ unit := .codeUnit, policy := .recompute } : Resolver).resolve surrogateSource
      tree = .ok inUnits := by cbv
  have hpoints : ({ unit := .codePoint, policy := .recompute } : Resolver).resolve surrogateSource
      tree = .ok inPoints := by cbv
  obtain ⟨-, hdistinct, -⟩ := resolve_monotone _ _ _ _ _ _ hsize hconvert hunits
  obtain ⟨-, -, hends⟩ := resolve_monotone _ _ _ _ _ _ hsize hconvert hpoints
  exact ⟨hconvert, hunits, hdistinct (Or.inr rfl), hpoints, hends⟩

end Resolver

end CanonicalTree
