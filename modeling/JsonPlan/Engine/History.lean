import JsonPlan.Engine
import JsonPlan.Plan.History

/-!
Sequences of requests to one engine and to the encoders that it has handed out, and the sizes that
they write.
-/

namespace JsonPlan

/-- Where an output goes, which decides by what entry point an encoder is called. -/
inductive Destination : Type 1 where
  /-- A text of its own. -/
  | text
  | sink {σ : Type} [Sink σ] (s : σ)
  | writer (w : Writer)

/-- A failure that may be missing, as an outcome. -/
def outcome : Option Error → Except Error Unit
  | none => .ok ()
  | some error => .error error

/-- Encodes a value, whatever becomes of the destination. -/
def Encoder.send {n : Nat} (e : Encoder n) (v : View) (sizes : CapacityCache) :
    Destination → Except Error Unit × CapacityCache
  | .text =>
    let (result, sizes') := e.toText v sizes
    (result.map fun _ => (), sizes')
  | @Destination.sink _ _ s =>
    let ((_, failure), sizes') := e.encode v s sizes
    (outcome failure, sizes')
  | .writer w =>
    let ((_, failure), sizes') := e.toWriter v w sizes
    (outcome failure, sizes')

inductive Request (n : Nat) : Type 1 where
  | program (r : Root n) (o : Options)
  | encoder (r : Root n) (o : Options)
  | estimateCapacity (r : Root n) (o : Options)
  | recordObservedSize (r : Root n) (o : Options) (size : Nat)
  /-- An encoding by the encoder that was obtained at a place of all of them. -/
  | encode (place : Nat) (v : View) (d : Destination)

inductive Reply (n : Nat) where
  | program (p : Program)
  | encoder (e : Encoder n)
  | size (size : Nat)
  | done

/-- An engine, and the encoders obtained from it so far. -/
structure Session (n : Nat) where
  engine : Engine n
  encoders : List (Encoder n)

/-- The estimate of a program that was compiled for nothing but it. -/
def Schema.staticEstimate {n : Nat} (S : Schema n) (costs : CostTable) (k : PlanKey n) :
    Except Error Nat := do
  costs.estimate (← S.fresh k).actions

namespace Session

variable {n : Nat} (S : Schema n)

def new (costs : CostTable) : Session n := ⟨.new costs, []⟩

/-- The sizes that are remembered. -/
def sizes (s : Session n) : CapacityCache := s.engine.capacities

/-- One request. An encoding by an encoder that was not obtained is none. -/
def step (s : Session n) : Request n → Except Error (Reply n) × Session n
  | .program r o =>
    let (result, engine) := (Engine.program S r o).run.run s.engine
    (result.map .program, { s with engine })
  | .encoder r o =>
    match (Engine.encoder S r o).run.run s.engine with
    | (.ok e, engine) => (.ok (.encoder e), ⟨engine, s.encoders ++ [e]⟩)
    | (.error error, engine) => (.error error, { s with engine })
  | .estimateCapacity r o =>
    let (result, engine) := (Engine.estimateCapacity S r o).run.run s.engine
    (result.map .size, { s with engine })
  | .recordObservedSize r o size =>
    (.ok .done, { s with engine := s.engine.recordObservedSize r o size })
  | .encode place v d =>
    match s.encoders[place]? with
    | some e =>
      let (result, capacities) := e.send v s.sizes d
      (result.map fun _ => .done, { s with engine := { s.engine with capacities } })
    | none => (.ok .done, s)

/-- Requests one after another, whether they fail or not. -/
def run (s : Session n) : List (Request n) → Session n
  | [] => s
  | q :: rest => run (s.step S q).2 rest

/-! ## Writes -/

/-- The key whose size a request is about. -/
def key? (s : Session n) : Request n → Option CapacityKey
  | .program .. => none
  | .encoder r o | .estimateCapacity r o | .recordObservedSize r o _ =>
    some (Engine.capacityKey r o)
  | .encode place .. => s.encoders[place]?.map (·.key)

/-- The size that a request has for its key: an estimate if the key has none yet, a size that the
caller has seen, or that of an output. -/
def raw? (s : Session n) : Request n → Option Nat
  | .program .. => none
  | .encoder r o | .estimateCapacity r o =>
    match s.sizes.get? (Engine.capacityKey r o) with
    | some _ => none
    | none => (S.staticEstimate s.engine.costs ⟨r.shape, o.includeInherited⟩).toOption
  | .recordObservedSize _ _ size => some size
  | .encode place v _ =>
    s.encoders[place]?.bind fun e =>
      if e.options.recordSizes then some (e.trace v).text.utf8ByteSize else none

/-- What a request writes. One that fails writes nothing. -/
def write? (s : Session n) (q : Request n) : Option (CapacityKey × Nat) :=
  match (s.step S q).1 with
  | .ok _ => do return (← s.key? q, ← s.raw? S q)
  | .error _ => none

/-- What requests write, the first write first. -/
def writes (s : Session n) : List (Request n) → List (CapacityKey × Nat)
  | [] => []
  | q :: rest => (s.write? S q).toList ++ writes (s.step S q).2 rest

end Session
end JsonPlan
