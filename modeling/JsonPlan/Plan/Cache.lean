import JsonPlan.Program.Basic

/-! Compiled programs, kept by shape and by whether inherited members are in them. -/

namespace JsonPlan

structure PlanKey (n : Nat) where
  shape : Fin n
  includeInherited : Bool
  deriving DecidableEq, Repr

structure PlanCache (n : Nat) where
  entries : List (PlanKey n × Program)
  deriving Repr

namespace PlanCache

variable {n : Nat}

def empty : PlanCache n := ⟨[]⟩

def size (c : PlanCache n) : Nat := c.entries.length

def get? (c : PlanCache n) (k : PlanKey n) : Option Program := c.entries.lookup k

/-- Keeps a program under its key, unless the key has one. -/
def install (c : PlanCache n) (k : PlanKey n) (p : Program) : PlanCache n :=
  match c.get? k with
  | some _ => c
  | none => ⟨(k, p) :: c.entries⟩

end PlanCache
end JsonPlan
