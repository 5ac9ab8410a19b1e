/-! Sets of characters given by inclusive ranges of code points. -/

namespace JsonPlan.Text

/-- Whether the code point of a character lies in one of the ranges. -/
def inRanges (ranges : List (Nat × Nat)) (c : Char) : Bool :=
  ranges.any fun r => r.1 ≤ c.toNat && c.toNat ≤ r.2

end JsonPlan.Text
