import JsonPlan.Program.Action
import JsonPlan.Program.Fault

/-!
Where regions end. `matchingEnd` counts markers of one kind and ignores the others; `checkNesting`
demands that every end marker closes the innermost open region, and records where it does.
-/

namespace JsonPlan

/-- The distance to the end marker that closes a region of this kind, `pending` inner ones of the
same kind being open. -/
def closingOffset (region : Region) (pending : Nat) : List Action → Option Nat
  | [] => none
  | a :: rest =>
    if a.opens = some region then (closingOffset region (pending + 1) rest).map (· + 1)
    else if a.closes = some region then
      match pending with
      | 0 => some 0
      | p + 1 => (closingOffset region p rest).map (· + 1)
    else (closingOffset region pending rest).map (· + 1)

/-- The position of the end marker that closes the region opened at `start`. -/
def matchingEnd (actions : List Action) (start : Nat) : Except Fault Nat :=
  match actions[start]?.bind Action.opens with
  | none => .error (.noRegion start)
  | some region =>
    match closingOffset region 0 (actions.drop (start + 1)) with
    | some k => .ok (start + 1 + k)
    | none => .error (.unclosed region start)

/-- Checks the markers from position `index` on, with the regions open there, innermost first. An end
marker that closes the innermost one is recorded in `ends`, at the position of the begin marker. -/
def checkFrom (opened : List (Region × Nat)) (ends : Array Nat) (index : Nat) :
    List Action → Except Fault (Array Nat)
  | [] =>
    match opened with
    | [] => .ok ends
    | (region, start) :: _ => .error (.unclosed region start)
  | a :: rest =>
    match a.opens, a.closes with
    | some region, _ => checkFrom ((region, index) :: opened) ends (index + 1) rest
    | none, some region =>
      match opened with
      | [] => .error (.unopened region index)
      | (kind, start) :: outer =>
        if kind = region then checkFrom outer (ends.setIfInBounds start index) (index + 1) rest
        else .error (.crossed region index kind start)
    | none, none => checkFrom opened ends (index + 1) rest

/-- Checks that the markers of a list nest. Each position has an end: that of the region that it
opens, or itself. -/
def checkNesting (actions : List Action) : Except Fault (Array Nat) :=
  checkFrom [] (Array.range actions.length) 0 actions

end JsonPlan
