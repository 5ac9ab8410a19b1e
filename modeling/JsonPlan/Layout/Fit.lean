import JsonPlan.Layout.Basic
import JsonPlan.View.Basic

/-! Which views a layout accepts, and which ones conform to it. -/

namespace JsonPlan

/-- Whether a view is of the kind that a leaf writes. -/
def Leaf.matches : Leaf → View → Bool
  | .string _, .str _ | .char _, .char _ | .int, .int _ | .int, .uint _ | .bool, .bool _
  | .guid _, .guid _ | .float, .float _ | .double, .double _ | .date, .date _ => true
  | _, _ => false

namespace Layout

/-- Whether a view can be written. An absent value can, wherever a scalar, a list or a map is
expected, and a composite without members looks at no view. -/
def accepts (layout : Layout) (v : View) : Bool :=
  match layout with
  | atom a => v.isNull || (a.leaf true).matches v
  | optional inner => v.isNull || accepts inner v
  | sequence element =>
    match v with
    | .null => true
    | .seq items => items.all fun w => accepts element w
    | _ => false
  | map value =>
    match v with
    | .null => true
    | .map entries =>
      entries.all fun e => (match e.1 with | .str _ => true | _ => false) && accepts value e.2
    | _ => false
  | composite owner members =>
    match v with
    | .object type fields =>
      members.isEmpty || (type = owner && (members.map fun m =>
        match fields[m.1.slot]? with
        | some w => accepts m.2 w
        | none => true).all id)
    | _ => members.isEmpty
termination_by layout
decreasing_by
  all_goals first
    | exact sizeOf_lt_composite (by assumption)
    | decreasing_tactic

/-- Whether a view is a value of the layout: only optional values are absent, and every member of a
composite is there. -/
def conforms (layout : Layout) (v : View) : Bool :=
  match layout with
  | atom a => (a.leaf true).matches v
  | optional inner => v.isNull || conforms inner v
  | sequence element =>
    match v with
    | .seq items => items.all fun w => conforms element w
    | _ => false
  | map value =>
    match v with
    | .map entries =>
      entries.all fun e => (match e.1 with | .str _ => true | _ => false) && conforms value e.2
    | _ => false
  | composite owner members =>
    match v with
    | .object type fields =>
      type = owner && (members.map fun m =>
        match fields[m.1.slot]? with
        | some w => conforms m.2 w
        | none => false).all id
    | _ => false
termination_by layout
decreasing_by
  all_goals first
    | exact sizeOf_lt_composite (by assumption)
    | decreasing_tactic

end Layout
end JsonPlan
