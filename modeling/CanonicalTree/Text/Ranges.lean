/-!
# Classes of characters

A class of characters is given by the ranges of their codes. The classes in this folder are those of
Unicode 17.0, each in a module of its own.
-/

namespace CanonicalTree.Text

/-- A class of characters: the closed ranges of their codes, in ascending order. -/
abbrev CodeRanges := List (Nat × Nat)

/-- Whether a character belongs to a class. -/
def CodeRanges.covers (ranges : CodeRanges) (c : Char) : Bool :=
  ranges.any fun range => range.1 ≤ c.toNat && c.toNat ≤ range.2

end CanonicalTree.Text
