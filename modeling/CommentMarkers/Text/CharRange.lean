/-!
# Ranges of characters

Properties of characters are tables of ranges of code points, both ends included, in increasing
order.
-/

namespace CommentMarkers.Text

/-- A range of code points, both ends included. -/
abbrev CharRange := Nat × Nat

/-- Holds if a table of ranges has the character. -/
def inRanges (ranges : List CharRange) (char : Char) : Bool :=
  ranges.any fun (low, high) => low ≤ char.toNat && char.toNat ≤ high

end CommentMarkers.Text
