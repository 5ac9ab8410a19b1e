import JsonPlan.Decimal.Shortest
import JsonPlan.Text.Quoted
import JsonPlan.View.Basic

/-! Views as a reader sees them: scalars with their contents, all else by kind. -/

namespace JsonPlan.View

open Decimal Binary

def listing : View → String
  | bool b => "Bool(" ++ (if b then "true" else "false") ++ ")"
  | int v => "Int(" ++ intNumeral v.toInt ++ ")"
  | uint v => "UInt(" ++ numeral v.toNat ++ ")"
  | float v => "Float(" ++ natural .binary32 v.datum ++ ")"
  | double v => "Double(" ++ natural .binary64 v.datum ++ ")"
  | char c => "Char(" ++ Text.quotedChar c ++ ")"
  | str s => "Str(" ++ Text.quoted s ++ ")"
  | guid g => "Guid(" ++ g.text ++ ")"
  | date d => "Date(" ++ d.plain ++ ")"
  | v => v.kindName

end JsonPlan.View
