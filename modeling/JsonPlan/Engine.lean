import JsonPlan.Encoder
import JsonPlan.Plan.Compile
import JsonPlan.Program.Cost

/-! Encoders from two caches: compiled programs, and expected output sizes. -/

namespace JsonPlan

/-- A type to encode: its own identity, and the shape that it has. -/
structure Root (n : Nat) where
  type : Nat
  shape : Fin n
  deriving DecidableEq, Repr

structure Engine (n : Nat) where
  plans : PlanCache n
  capacities : CapacityCache
  costs : CostTable

/-- A request to an engine, which may fail and keeps what was cached until then. -/
abbrev EngineM (n : Nat) := ExceptT Error (StateM (Engine n))

namespace Engine

variable {n : Nat} (S : Schema n)

def new (costs : CostTable) : Engine n := ⟨.empty, .empty, costs⟩

def capacityKey (r : Root n) (o : Options) : CapacityKey := ⟨r.type, o.flags⟩

/-- The program of a type. -/
def program (r : Root n) (o : Options) : EngineM n Program := do
  let engine ← get
  let (result, plans) := S.plan engine.plans r.shape o.includeInherited
  set { engine with plans }
  result

/-- The remembered size for a key, which is the program's estimate if there is none yet. -/
def capacityOrEstimate (k : CapacityKey) (p : Program) : EngineM n Nat := do
  let engine ← get
  match engine.capacities.get? k with
  | some size => pure size
  | none =>
    let raw ← engine.costs.estimate p.actions
    set { engine with capacities := engine.capacities.set k raw }
    pure (Capacity.bucket raw)

/-- An encoder for a type. The options are looked at before anything is compiled. -/
def encoder (r : Root n) (o : Options) : EngineM n (Encoder n) := do
  o.checkEncodable
  let p ← program S r o
  let _ ← capacityOrEstimate (capacityKey r o) p
  return ⟨p, o, capacityKey r o, ⟨r.shape, o.includeInherited⟩⟩

/-- The size expected of an output. -/
def estimateCapacity (r : Root n) (o : Options) : EngineM n Nat := do
  match (← get).capacities.get? (capacityKey r o) with
  | some size => pure size
  | none =>
    let p ← program S r o
    capacityOrEstimate (capacityKey r o) p

/-- Remembers the size of an output that a caller has seen. -/
def recordObservedSize (e : Engine n) (r : Root n) (o : Options) (size : Nat) : Engine n :=
  { e with capacities := e.capacities.set (capacityKey r o) size }

end Engine
end JsonPlan
