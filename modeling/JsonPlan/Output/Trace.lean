import JsonPlan.Error

/-!
What a run writes: chunks in order, and the failure that ended it, if any. Nothing is written after
a failure.
-/

namespace JsonPlan

structure Trace where
  chunks : List String
  failure : Option Error
  deriving DecidableEq, Repr

namespace Trace

def done : Trace := ⟨[], none⟩

def emit (chunks : List String) : Trace := ⟨chunks, none⟩

def fail (e : Error) : Trace := ⟨[], some e⟩

/-- Runs on with `b` unless `a` has failed. -/
def andThen (a b : Trace) : Trace :=
  match a.failure with
  | none => ⟨a.chunks ++ b.chunks, b.failure⟩
  | some _ => a

instance : Append Trace := ⟨andThen⟩

def text (t : Trace) : String := String.join t.chunks

/-! ## Composition -/

theorem append_def (a b : Trace) : a ++ b = a.andThen b := rfl

@[simp] theorem done_append (t : Trace) : done ++ t = t := by
  simp [append_def, andThen, done]

@[simp] theorem append_done (t : Trace) : t ++ done = t := by
  rcases t with ⟨c, _ | e⟩ <;> simp [append_def, andThen, done]

theorem append_assoc (a b c : Trace) : a ++ b ++ c = a ++ (b ++ c) := by
  rcases a with ⟨_, _ | _⟩ <;> rcases b with ⟨_, _ | _⟩ <;> simp [append_def, andThen]

@[simp] theorem emit_append_emit (a b : List String) : emit a ++ emit b = emit (a ++ b) := rfl

@[simp] theorem fail_append (e : Error) (t : Trace) : fail e ++ t = fail e := rfl

/-! ## Brackets and separators -/

/-- The traces one after another, each after a comma. -/
def commaLed : List Trace → Trace
  | [] => done
  | t :: ts => emit [","] ++ (t ++ commaLed ts)

/-- The traces one after another, with a comma between neighbours. -/
def separated : List Trace → Trace
  | [] => done
  | t :: ts => t ++ commaLed ts

end Trace
end JsonPlan
