/-! The four kinds of bracketed regions in a program. -/

namespace JsonPlan

inductive Region where
  | list
  | map
  | member
  | nullable
  deriving DecidableEq, Repr

namespace Region

def name : Region → String
  | list => "list"
  | map => "map"
  | member => "member"
  | nullable => "nullable"

/-- The name as it stands in a marker such as `BeginList`. -/
def label : Region → String
  | list => "List"
  | map => "Map"
  | member => "Member"
  | nullable => "Nullable"

/-- Whether the body of a region stands for any number of entries. -/
def repeats : Region → Bool
  | list | map => true
  | member | nullable => false

end Region
end JsonPlan
