import JsonPlan.Decimal.Numeral
import JsonPlan.Program.Region

/-! What can be wrong with the markers of an action list. -/

namespace JsonPlan

inductive Fault where
  /-- The action at `index` opens no region. -/
  | noRegion (index : Nat)
  /-- The region opened at `index` is never closed. -/
  | unclosed (region : Region) (index : Nat)
  /-- The end marker at `index` closes nothing. -/
  | unopened (region : Region) (index : Nat)
  /-- The end marker at `index` meets an open region of another kind. -/
  | crossed (region : Region) (index : Nat) (opened : Region) (start : Nat)
  /-- An estimate meets the end of a list or map that it never entered. -/
  | stray (region : Region) (index : Nat)
  /-- A fault that a caller found. -/
  | other (reason : String)
  deriving DecidableEq, Repr

namespace Fault

open Decimal (numeral)

def message : Fault → String
  | noRegion i => "action " ++ numeral i ++ " does not open a region"
  | unclosed r i => "begin-" ++ r.name ++ " at " ++ numeral i ++ " has no matching end-" ++ r.name
  | unopened r i => "end-" ++ r.name ++ " at " ++ numeral i ++ " has no matching begin-" ++ r.name
  | crossed r i o s =>
      "end-" ++ r.name ++ " at " ++ numeral i ++ " closes begin-" ++ o.name ++ " at " ++ numeral s
  | stray r i => "End" ++ r.label ++ " at " ++ numeral i ++ " closes a region that was never opened"
  | other reason => reason

end Fault
end JsonPlan
