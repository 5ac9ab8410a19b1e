import JsonPlan.Json.Value

/-! The text of a JSON tree, without any white space. -/

namespace JsonPlan.Json

/-- A decimal with all of its places. -/
def Number.text (n : Number) : String :=
  let sign := if n.mantissa < 0 then "-" else ""
  let whole := Decimal.numeral (n.mantissa.natAbs / 10 ^ n.places)
  let fraction := if n.places = 0 then "" else
    "." ++ Decimal.padded n.places (n.mantissa.natAbs % 10 ^ n.places)
  sign ++ whole ++ fraction

def render : Json → String
  | null => "null"
  | bool b => if b then "true" else "false"
  | number n => n.text
  | string s => quoted s
  | array items => "[" ++ ",".intercalate (items.map fun i => render i) ++ "]"
  | object entries =>
    "\x7b" ++ ",".intercalate (entries.map fun e => memberName e.1 ++ render e.2) ++ "\x7d"
termination_by j => j
decreasing_by
  · exact sizeOf_lt_array (by assumption)
  · exact sizeOf_lt_object (by assumption)

end JsonPlan.Json
