import JsonPlan.Layout.Basic
import JsonPlan.Program.Cost

/-! Output sizes predicted from a layout, without bounds and without any program. -/

namespace JsonPlan.Layout

/-- The predicted size of what a layout writes. -/
def cost (t : CostTable) (layout : Layout) : Nat :=
  match layout with
  | atom a => t.leafCost (a.leaf true)
  | optional inner => cost t inner
  | sequence element => t.fanOut * cost t element + t.overhead
  | map value => t.fanOut * cost t value + t.overhead
  | composite _ members =>
    2 + (members.length - 1) + (members.map fun m =>
      (Json.memberName m.1.name).utf8ByteSize + (if m.2.isStringLike then 2 else 0) + cost t m.2).foldr (· + ·) 0
termination_by layout
decreasing_by
  all_goals first
    | exact sizeOf_lt_composite (by assumption)
    | decreasing_tactic

end JsonPlan.Layout
