import JsonPlan.Error
import JsonPlan.Program.Matching

/-! Programs: action lists whose regions nest, each action with the reach of its region. -/

namespace JsonPlan

/-- An action, and how many actions later the region that it opens ends. -/
structure Step where
  action : Action
  span : Nat
  deriving DecidableEq, Repr

/-- Each action with the reach of its region, by the positions where regions end. -/
def Step.ofEnds (ends : Array Nat) (actions : List Action) : List Step :=
  actions.mapIdx fun index a => ⟨a, ends.getD index index - index⟩

structure Program where
  steps : List Step
  deriving DecidableEq, Repr

namespace Program

def actions (p : Program) : List Action := p.steps.map (·.action)

def size (p : Program) : Nat := p.steps.length

/-- The position where the region opened at `index` ends, or `index` itself. -/
def endOf (p : Program) (index : Nat) : Nat := index + (p.steps[index]?.map Step.span).getD 0

/-- Freezes an action list whose markers nest. -/
def ofActions (actions : List Action) : Except Error Program :=
  match checkNesting actions with
  | .ok ends => .ok ⟨Step.ofEnds ends actions⟩
  | .error fault => .error (.malformedProgram fault)

/-- Whether two programs hold the same actions; members count by name. -/
def agrees (p q : Program) : Bool :=
  p.size = q.size && (List.zipWith Action.agrees p.actions q.actions).all id

end Program
end JsonPlan
