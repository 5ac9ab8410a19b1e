import JsonPlan.Program.Basic

/-! Assembling programs: empty literals are dropped and neighbouring ones fused. -/

namespace JsonPlan

/-- The actions so far, the last one first. -/
structure Builder where
  reversed : List Action
  deriving DecidableEq, Repr

namespace Builder

def empty : Builder := ⟨[]⟩

def actions (b : Builder) : List Action := b.reversed.reverse

/-- Appends fixed text, as part of the literal before it if there is one. -/
def literal (b : Builder) (text : String) : Builder :=
  if text.isEmpty then b
  else
    match b.reversed with
    | .literal last :: rest => ⟨.literal (last ++ text) :: rest⟩
    | rest => ⟨.literal text :: rest⟩

def push (b : Builder) : Action → Builder
  | .literal text => b.literal text
  | a => ⟨a :: b.reversed⟩

def pushAll (b : Builder) (actions : List Action) : Builder := actions.foldl push b

/-- Appends every action of a program. -/
def extend (b : Builder) (p : Program) : Builder := b.pushAll p.actions

/-- A region of its own around the actions of a program. -/
def region (o : Opening) (inner : Program) : Builder :=
  ((empty.push (.enter o)).extend inner).push (.leave o.region)

def freeze (b : Builder) : Except Error Program := Program.ofActions b.actions

end Builder
end JsonPlan
