import JsonPlan.Layout.Basic
import JsonPlan.Program.Nesting

/-!
The program of a layout, without any cache or builder. A string-like member has its quotes in the
literals around its region.
-/

namespace JsonPlan

/-- A region of its own around a body. -/
def Opening.around (o : Opening) (body : List Action) : List Action :=
  .enter o :: (body ++ [.leave o.region])

namespace Layout

/-- The quote on either side of a member's region. -/
def quote (layout : Layout) : String := if layout.isStringLike then "\"" else ""

/-- A member with its quote and the actions inside its region. -/
structure Part where
  place : Place
  quote : String
  body : List Action

/-- Members one after another up to the closing brace. `pending` has still to be written in front of
the next literal, and `separator` stands before the next name. -/
def memberActions (owner pending separator : String) : List Part → List Action
  | [] => [.literal (pending ++ "\x7d")]
  | m :: rest =>
    .literal (pending ++ separator ++ Json.memberName m.place.name ++ m.quote) ::
      .enter (.member (m.place.ref owner)) ::
        (m.body ++ .leave .member :: memberActions owner m.quote "," rest)

/-- The actions of a layout; `quoted` says whether an atom writes its own quotes. -/
def actions (quoted : Bool) (layout : Layout) : List Action :=
  match layout with
  | atom a => [.write (a.leaf quoted)]
  | optional inner => Opening.nullable.around (actions true inner)
  | sequence element => Opening.list.around (actions true element)
  | map value => Opening.map.around (actions true value)
  | composite owner members =>
    memberActions owner "\x7b" "" (members.map fun m => ⟨m.1, m.2.quote, actions false m.2⟩)
termination_by layout
decreasing_by
  all_goals first
    | exact sizeOf_lt_composite (by assumption)
    | decreasing_tactic

/-- The part of a composite's program that belongs to a member. -/
def part (m : Place × Layout) : Part := ⟨m.1, m.2.quote, actions false m.2⟩

def program (layout : Layout) : Program := ⟨withSpans (layout.actions true)⟩

end Layout
end JsonPlan
