import JsonPlan.Plan.History
import JsonPlan.Shape.Defect

/-!
What a cache holds. Its entries are numbered in the order in which they were made, so that two
entries differ even if their programs are equal.
-/

namespace JsonPlan.PlanCache

variable {n : Nat}

/-- The entry of a key: how many entries were made before it, and the program in it. -/
def kept? (c : PlanCache n) (k : PlanKey n) : Option (Nat × Program) :=
  match c.entries.dropWhile fun e => e.1 ≠ k with
  | [] => none
  | e :: older => some (older.length, e.2)

def Holds (c : PlanCache n) (k : PlanKey n) : Prop := ∃ p, c.get? k = some p

variable (S : Schema n)

/-- With a shape, a cache holds the shapes that its program is built from. -/
def Closed (c : PlanCache n) : Prop :=
  ∀ k, c.Holds k → ∀ u ∈ S.parts k.includeInherited k.shape, c.Holds ⟨u, k.includeInherited⟩

/-- What can be relied on when more is requested from a cache. -/
structure Keeps (c : PlanCache n) : Prop where
  /-- An entry is neither removed nor replaced. -/
  lasting {k : PlanKey n} {entry : Nat × Program} : c.kept? k = some entry →
    ∀ ks, (S.serve c ks).2.kept? k = some entry
  apart {j k : PlanKey n} {i : Nat} {p q : Program} :
    c.kept? j = some (i, p) → c.kept? k = some (i, q) → j = k
  /-- A request that succeeds hands out the program of its key's entry. -/
  served {k : PlanKey n} {p : Program} : (S.plan c k.shape k.includeInherited).1 = .ok p →
    ∃ i, (S.plan c k.shape k.includeInherited).2.kept? k = some (i, p)
  /-- Whatever is requested in between, the same request gets the same program again, and compiles
  nothing. -/
  shared {k : PlanKey n} {p : Program} : (S.plan c k.shape k.includeInherited).1 = .ok p →
    ∀ ks, let later := (S.serve (S.plan c k.shape k.includeInherited).2 ks).2
      S.plan later k.shape k.includeInherited = (.ok p, later)
  closed : c.Closed S
  /-- A request adds nothing but what its program is built from. -/
  added {k j : PlanKey n} : (S.plan c k.shape k.includeInherited).2.Holds j → c.Holds j ∨
    (j.includeInherited = k.includeInherited ∧ S.Reaches k.includeInherited k.shape j.shape)
  compiled {k : PlanKey n} {p : Program} : c.get? k = some p → S.fresh k = .ok p
  /-- A request that fails does so over a shape that has no program, and leaves nothing that is
  built from this shape. -/
  failed {k : PlanKey n} {e : Error} : (S.plan c k.shape k.includeInherited).1 = .error e →
    ∃ d, S.Reaches k.includeInherited k.shape d ∧ S.Faulty k.includeInherited d e ∧
      ∀ u, S.Reaches k.includeInherited u d →
        ¬ (S.plan c k.shape k.includeInherited).2.Holds ⟨u, k.includeInherited⟩

end JsonPlan.PlanCache
