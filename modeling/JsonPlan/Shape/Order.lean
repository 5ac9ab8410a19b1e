import JsonPlan.Shape.Basic

/-! Members in memory order: by position, fields before properties, unknown positions last. -/

namespace JsonPlan.Member

variable {n : Nat}

/-- Whether `a` may stand before `b`. -/
def precedes (a b : Member n) : Bool :=
  match a.position, b.position with
  | some x, some y => x < y || (x = y && (a.isField || !b.isField))
  | some _, none => true
  | none, some _ => false
  | none, none => a.isField || !b.isField

/-- Puts a member before the first one that it precedes. -/
def insert (a : Member n) : List (Member n) → List (Member n)
  | [] => [a]
  | b :: rest => if a.precedes b then a :: b :: rest else b :: insert a rest

/-- The members in memory order; those that tie keep their order. -/
def sort (members : List (Member n)) : List (Member n) := members.foldr insert []

/-- The members to write, in memory order. -/
def order (members : List (Member n)) (includeInherited : Bool) : List (Member n) :=
  sort (members.filter fun m => includeInherited || !m.inherited)

end JsonPlan.Member
