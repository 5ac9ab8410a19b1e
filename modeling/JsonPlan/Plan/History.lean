import JsonPlan.Plan.Compile

/-! Sequences of requests on one cache, and the caches that they leave behind. -/

namespace JsonPlan

/-- A cache after any number of requests, some of which may have failed. -/
inductive PlanCache.Reachable {n : Nat} (S : Schema n) : PlanCache n → Prop where
  | empty : Reachable S .empty
  | request {c : PlanCache n} (t : Fin n) (includeInherited : Bool) :
      Reachable S c → Reachable S (S.plan c t includeInherited).2

namespace Schema

variable {n : Nat} (S : Schema n)

/-- Requests one after another: what each of them gets, and the cache after the last. -/
def serve (c : PlanCache n) : List (PlanKey n) → List (Except Error Program) × PlanCache n
  | [] => ([], c)
  | k :: rest =>
    let (outcome, c') := S.plan c k.shape k.includeInherited
    let (outcomes, last) := serve c' rest
    (outcome :: outcomes, last)

/-- What a request gets if nothing was requested before. -/
def fresh (k : PlanKey n) : Except Error Program := (S.plan .empty k.shape k.includeInherited).1

end Schema
end JsonPlan
