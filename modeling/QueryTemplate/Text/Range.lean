/-! # Ranges of code points

Character classes beyond ASCII are given by the ranges of code points they consist of.
-/

namespace QueryTemplate.Text

/-- The code points from the first to the second, both included. -/
abbrev CodeRange := Nat × Nat

def inRanges (ranges : List CodeRange) (c : Char) : Bool :=
  ranges.any fun range => range.1 ≤ c.toNat && c.toNat ≤ range.2

end QueryTemplate.Text
