import JsonPlan.Capacity
import JsonPlan.Machine.Writing
import JsonPlan.Options.Basic
import JsonPlan.Output.Sink
import JsonPlan.Plan.Cache

/-! A program with the options under which it runs. -/

namespace JsonPlan

structure Encoder (n : Nat) where
  program : Program
  options : Options
  /-- The remembered size that belongs to the outputs. -/
  key : CapacityKey
  /-- The kept program that is run. -/
  plan : PlanKey n

namespace Encoder

variable {n : Nat} (e : Encoder n)

/-- No more than this is reserved at once. -/
def presizeLimit : Nat := 1_048_576

/-- What is reserved before a run. -/
def presize (c : CapacityCache) : Nat := min (c.get e.key) presizeLimit

def style : Style := ⟨e.options.dateFormat, e.options.jsonpCallback.isSome⟩

/-- The document of a value, as the argument of the callback if there is one. -/
def trace (v : View) : Trace :=
  match e.options.jsonpCallback with
  | none => run e.style e.program.steps v
  | some callback => .emit [callback, "("] ++ run e.style e.program.steps v ++ .emit [")"]

/-- Writes the document of a value into a sink. -/
def write {σ : Type} [Sink σ] (v : View) : Writing σ :=
  match e.options.jsonpCallback with
  | none => runInto e.style e.program.steps v
  | some callback =>
    .text callback ++ .char '(' ++ runInto e.style e.program.steps v ++ .char ')'

/-- Remembers the size of an output, if sizes are to be remembered. -/
def record (size : Nat) (c : CapacityCache) : CapacityCache :=
  if e.options.recordSizes then c.set e.key size else c

/-- Writes a value to a sink. The size counts what passes on the way to the sink. -/
def encode {σ : Type} [Sink σ] (v : View) (s : σ) (c : CapacityCache) :
    (σ × Option Error) × CapacityCache :=
  match (e.write v).into (Counted.mk (Sink.reserve s (e.presize c)) 0) with
  | (counted, none) => ((counted.inner, none), e.record counted.written c)
  | (counted, some error) => ((counted.inner, some error), c)

/-- Writes a value as a text of its own. The size is that of the text. -/
def toText (v : View) (c : CapacityCache) : Except Error String × CapacityCache :=
  match (e.write v).into "" with
  | (out, none) => (.ok out, e.record out.utf8ByteSize c)
  | (_, some error) => (.error error, c)

/-- Writes a value to a writer. The size is what the writer took in whole chunks. -/
def toWriter (v : View) (w : Writer) (c : CapacityCache) :
    (Writer × Option Error) × CapacityCache :=
  match (e.write v).into (Metered.mk w 0) with
  | (m, none) => ((m.writer, none), e.record m.written c)
  | (m, some error) => ((m.writer, some error), c)

end Encoder
end JsonPlan
