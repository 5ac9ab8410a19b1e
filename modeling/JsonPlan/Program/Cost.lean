import JsonPlan.Capacity
import JsonPlan.Program.Basic

/-! Output sizes predicted from actions alone. Sums and products saturate at `maxSize`. -/

namespace JsonPlan

/-- The bytes assumed for each scalar, and the entries assumed for each list or map. -/
structure CostTable where
  string : Nat
  char : Nat
  int : Nat
  bool : Nat
  guid : Nat
  float : Nat
  date : Nat
  fanOut : Nat
  deriving DecidableEq, Repr

namespace CostTable

def default : CostTable := ⟨20, 1, 3, 5, 36, 3, 26, 10⟩

def leafCost (t : CostTable) : Leaf → Nat
  | .string _ => t.string
  | .char _ => t.char
  | .int => t.int
  | .bool => t.bool
  | .guid _ => t.guid
  | .float | .double => t.float
  | .date => t.date

/-- Brackets, and the commas between the assumed entries. -/
def overhead (t : CostTable) : Nat := 2 + (t.fanOut - 1)

def satAdd (a b : Nat) : Nat := min maxSize (a + b)

def satMul (a b : Nat) : Nat := min maxSize (a * b)

/-- The cost of a list or map whose body costs `body`. -/
def regionCost (t : CostTable) (body : Nat) : Nat := satAdd (satMul body t.fanOut) t.overhead

/-- Adds the cost of actions to `total`; `index` is the position of the first in their list. A list
or map is costed as one body, whose positions count from its own start. -/
def estimateFrom (t : CostTable) (total index : Nat) : List Action → Except Fault Nat
  | [] => .ok total
  | .literal text :: rest => t.estimateFrom (satAdd total text.utf8ByteSize) (index + 1) rest
  | .write leaf :: rest => t.estimateFrom (satAdd total (t.leafCost leaf)) (index + 1) rest
  | .enter opening :: rest =>
    if opening.region.repeats then
      match closingOffset opening.region 0 rest with
      | none => .error (.unclosed opening.region index)
      | some k => do
        let body ← t.estimateFrom 0 0 (rest.take k)
        t.estimateFrom (satAdd total (t.regionCost body)) (index + k + 2) (rest.drop (k + 1))
    else t.estimateFrom total (index + 1) rest
  | .leave region :: rest =>
    if region.repeats then .error (.stray region index) else t.estimateFrom total (index + 1) rest
termination_by actions => actions.length
decreasing_by all_goals (simp only [List.length_cons, List.length_take, List.length_drop]; omega)

/-- The predicted size of what an action list writes. -/
def estimate (t : CostTable) (actions : List Action) : Except Error Nat :=
  match t.estimateFrom 0 0 actions with
  | .ok n => .ok n
  | .error fault => .error (.malformedProgram fault)

end CostTable
end JsonPlan
