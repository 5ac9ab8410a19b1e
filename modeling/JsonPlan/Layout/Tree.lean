import JsonPlan.Json.Value
import JsonPlan.Layout.Text

/-!
The JSON tree that a view stands for under a layout, and what is left of one without the inherited
members.
-/

namespace JsonPlan

open Decimal Binary

/-- The tree of an integer. -/
def Json.ofInt (v : Int) : Json := .number ⟨v, 0⟩

/-- The number that a float is written as. -/
def Json.ofFloat (p : Precision) : Datum → Json
  | .finite negative m q =>
    let v := (m : Rat) * pow2 q
    let sign : Int := if negative then -1 else 1
    if v = 0 ∨ p.zeroBelow.exceeds v then .ofInt 0
    else if splitLimit ≤ v then
      let s := shortest .binary64 m q
      .ofInt (sign * (s.coefficient * 10 ^ s.exponent.toNat : Nat))
    else
      let (n, places) := (Split.ofMagnitude v (p.scale v)).scaled
      .number ⟨sign * n, places⟩
  | _ => .null

/-- The tree of a scalar. A date as a number counts whole seconds or milliseconds; in a leap second
the milliseconds go on from 1000. -/
def Leaf.tree (style : Style) : Leaf → View → Json
  | .string _, .str s => .string s
  | .char _, .char c => .string c.toString
  | .int, .int v => .ofInt v.toInt
  | .int, .uint v => .ofInt v.toNat
  | .bool, .bool b => .bool b
  | .guid _, .guid g => .string g.text
  | .float, .float x => .ofFloat .single (x.datum.widen .binary64)
  | .double, .double x => .ofFloat .double x.datum
  | .date, .date d =>
    match style.dateFormat with
    | .iso8601 => .string d.iso
    | .milliseconds => .ofInt (d.seconds * 1000 + d.nanos / 1_000_000)
    | .seconds => .ofInt d.seconds
    | .newtonsoft =>
      .string ("/Date(" ++ intNumeral (d.seconds * 1000 + d.nanos / 1_000_000) ++ ")/")
    | .rfc1123 => .string d.rfc1123
  | _, _ => .null

namespace Layout

/-- The tree of a view. -/
def tree (style : Style) (layout : Layout) (v : View) : Json :=
  match layout with
  | atom a => (a.leaf true).tree style v
  | optional inner => if v.isNull then .null else tree style inner v
  | sequence element =>
    match v with
    | .seq items => .array (items.map fun w => tree style element w)
    | _ => .null
  | map value =>
    match v with
    | .map entries => .object (entries.map fun e => (e.1.keyText, tree style value e.2))
    | _ => .null
  | composite _ members =>
    .object (members.map fun m => (m.1.name, tree style m.2 (v.slot m.1.slot)))
termination_by layout
decreasing_by
  all_goals first
    | exact sizeOf_lt_composite (by assumption)
    | decreasing_tactic

/-- The tree of what is written for a view, whether the view conforms or not. The quotes of a
string-like member stand around an absent value as well. -/
def written (style : Style) (layout : Layout) (v : View) : Json :=
  match layout with
  | atom a => (a.leaf true).tree style v
  | optional inner => if v.isNull then .null else written style inner v
  | sequence element =>
    match v with
    | .seq items => .array (items.map fun w => written style element w)
    | _ => .null
  | map value =>
    match v with
    | .map entries => .object (entries.map fun e => (e.1.keyText, written style value e.2))
    | _ => .null
  | composite _ members =>
    .object (members.map fun m =>
      (m.1.name,
        if m.2.isStringLike && (v.slot m.1.slot).isNull then .string "null"
        else written style m.2 (v.slot m.1.slot)))
termination_by layout
decreasing_by
  all_goals first
    | exact sizeOf_lt_composite (by assumption)
    | decreasing_tactic

/-- A layout without the members that are inherited, at every depth. -/
def own (layout : Layout) : Layout :=
  match layout with
  | atom a => atom a
  | optional inner => optional (own inner)
  | sequence element => sequence (own element)
  | map value => map (own value)
  | composite owner members =>
    composite owner ((members.map fun m => (m.1, own m.2)).filter fun m => !m.1.inherited)
termination_by layout
decreasing_by
  all_goals first
    | exact sizeOf_lt_composite (by assumption)
    | decreasing_tactic

/-- A tree without the members that are inherited, at every depth. -/
def prune (layout : Layout) (j : Json) : Json :=
  match layout with
  | atom _ => j
  | optional inner => prune inner j
  | sequence element =>
    match j with
    | .array items => .array (items.map fun i => prune element i)
    | j => j
  | map value =>
    match j with
    | .object entries => .object (entries.map fun e => (e.1, prune value e.2))
    | j => j
  | composite _ members =>
    match j with
    | .object entries =>
      .object (((members.map fun m => (m.1, prune m.2)).zip entries).filterMap fun p =>
        if p.1.1.inherited then none else some (p.2.1, p.1.2 p.2.2))
    | j => j
termination_by layout
decreasing_by
  all_goals first
    | exact sizeOf_lt_composite (by assumption)
    | decreasing_tactic

end Layout
end JsonPlan
