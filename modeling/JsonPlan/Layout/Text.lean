import JsonPlan.Layout.Basic
import JsonPlan.Machine

/-! The document of a view straight from its layout, without any program. -/

namespace JsonPlan

/-- The text of a scalar. -/
def Leaf.text (style : Style) (leaf : Leaf) (v : View) : String :=
  String.join ((leaf.chunks? style v).getD [])

theorem Leaf.text_null (style : Style) (leaf : Leaf) : leaf.text style .null = "null" := by
  cases leaf <;> simp [Leaf.text, Leaf.chunks?]

namespace Layout

/-- Texts between two brackets, with commas between them. -/
def enclosed (left right : String) (items : List String) : String :=
  left ++ ",".intercalate items ++ right

/-- The text of a view. A view that does not fit its place is written as absent. -/
def text (style : Style) (layout : Layout) (v : View) : String :=
  match layout with
  | atom a => (a.leaf true).text style v
  | optional inner => if v.isNull then "null" else text style inner v
  | sequence element =>
    match v with
    | .seq items => enclosed "[" "]" (items.map fun w => text style element w)
    | _ => "null"
  | map value =>
    match v with
    | .map entries =>
      enclosed "\x7b" "\x7d" (entries.map fun e =>
        "\"" ++ Json.escaped style.jsonp e.1.keyText ++ "\":" ++ text style value e.2)
    | _ => "null"
  | composite _ members =>
    enclosed "\x7b" "\x7d" (members.map fun m =>
      Json.memberName m.1.name ++ text style m.2 (v.slot m.1.slot))
termination_by layout
decreasing_by
  all_goals first
    | exact sizeOf_lt_composite (by assumption)
    | decreasing_tactic

end Layout
end JsonPlan
