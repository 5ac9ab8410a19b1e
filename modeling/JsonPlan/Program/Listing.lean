import JsonPlan.Program.Basic
import JsonPlan.Text.Quoted

/-! Actions and programs as a reader sees them. -/

namespace JsonPlan

/-- A leaf with a choice of quotes shows it. -/
def Leaf.listing : Leaf → String
  | string q => "EscapedString " ++ flag q
  | char q => "Char " ++ flag q
  | int => "Int"
  | bool => "Bool"
  | guid q => "Guid " ++ flag q
  | float => "Float"
  | double => "Double"
  | date => "Date"
where
  flag (quoted : Bool) : String :=
    "\x7b quoted: " ++ (if quoted then "true" else "false") ++ " \x7d"

namespace Action

/-- An action by its name and contents. -/
def listing : Action → String
  | literal text => "Literal(" ++ Text.quoted text ++ ")"
  | enter (.member m) => "BeginMember(" ++ m.name ++ ")"
  | enter o => "Begin" ++ o.region.label
  | leave r => "End" ++ r.label
  | write leaf => leaf.listing

/-- The shorter form inside a program: a literal is its quoted text alone. -/
def brief : Action → String
  | literal text => Text.quoted text
  | enter (.member m) => "member(" ++ m.name ++ ")"
  | a => a.listing

/-- A bracketed list of actions. -/
def listingOf (actions : List Action) : String :=
  "[" ++ ", ".intercalate (actions.map listing) ++ "]"

end Action

/-- The actions of a program, joined by one space. -/
def Program.listing (p : Program) : String := " ".intercalate (p.actions.map Action.brief)

end JsonPlan
