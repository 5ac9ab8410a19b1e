import JsonPlan.Program.Builder

/-! Calls on one builder one after another, and the letters of what they are for. -/

namespace JsonPlan

namespace Action

/-- A literal is a literal for each of its characters; any other action stands for itself. -/
def letters : Action → List Action
  | literal text => text.toList.map fun c => .literal c.toString
  | a => [a]

/-- Actions with each literal in letters. -/
def spelled (actions : List Action) : List Action := actions.flatMap letters

end Action

namespace Builder

/-- A call on a builder. -/
inductive Call where
  | literal (text : String)
  | push (a : Action)
  | extend (p : Program)
  deriving DecidableEq, Repr

/-- The actions that a call is for, not fused. -/
def Call.actions : Call → List Action
  | literal text => [.literal text]
  | push a => [a]
  | extend p => p.actions

def call (b : Builder) : Call → Builder
  | .literal text => b.literal text
  | .push a => b.push a
  | .extend p => b.extend p

def run (b : Builder) (calls : List Call) : Builder := calls.foldl call b

/-- The actions that calls are for. -/
def called (calls : List Call) : List Action := calls.flatMap Call.actions

end Builder
end JsonPlan
