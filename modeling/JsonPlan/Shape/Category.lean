import JsonPlan.Shape.Reach

/-! The structural category of a shape; an optional shape has that of its inner one. -/

namespace JsonPlan

inductive Category where
  | primitive
  | string
  | map
  | sequence
  | composite
  deriving DecidableEq, Repr

def Category.name : Category → String
  | primitive => "Primitive"
  | string => "String"
  | map => "Map"
  | sequence => "Sequence"
  | composite => "Composite"

/-- The category of a shape. A chain of optional shapes that closes on itself has none. -/
def Schema.categoryFrom {n : Nat} (S : Schema n) (path : List (Fin n)) (t : Fin n) :
    Except Error Category :=
  match (S t).kind with
  | .primitive _ => .ok .primitive
  | .string => .ok .string
  | .optional inner =>
    if _ : t ∈ path then .error (.recursiveShape (S t).name)
    else categoryFrom S (t :: path) inner
  | .sequence _ => .ok .sequence
  | .map _ _ => .ok .map
  | .composite _ _ => .ok .composite
  | .unencodable => .error (.unsupportedShape (S t).name)
termination_by offPath path
decreasing_by exact offPath_cons_lt (by assumption)

def Schema.category {n : Nat} (S : Schema n) (t : Fin n) : Except Error Category :=
  S.categoryFrom [] t

end JsonPlan
