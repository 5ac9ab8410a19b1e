import JsonPlan.Error
import JsonPlan.Options.Flags
import JsonPlan.Text.Blank

/-! The styles in which dates are written, and the selectors that name them. -/

namespace JsonPlan

inductive DateFormat where
  | iso8601
  | milliseconds
  | seconds
  | newtonsoft
  | rfc1123
  deriving DecidableEq, Repr

namespace DateFormat

def selector : DateFormat → String
  | iso8601 => "iso8601"
  | milliseconds => "milliseconds"
  | seconds => "seconds"
  | newtonsoft => "newtonsoft"
  | rfc1123 => "rfc1123"

/-- The number of the flag that stands for a style. -/
def flagIndex : DateFormat → Nat
  | iso8601 => 0
  | milliseconds => 1
  | seconds => 2
  | newtonsoft => 3
  | rfc1123 => 4

def flag (f : DateFormat) : OptionFlags := .bit f.flagIndex true

/-- Reads a selector or one of its short forms, in any ASCII case and with white space around it. -/
def ofText (text : String) : Except Error DateFormat :=
  match (Text.trim text).map Char.toLower with
  | "iso8601" | "iso" => .ok iso8601
  | "milliseconds" | "ms" => .ok milliseconds
  | "seconds" | "s" => .ok seconds
  | "newtonsoft" => .ok newtonsoft
  | "rfc1123" => .ok rfc1123
  | _ => .error (.unknownDateFormat text)

end DateFormat
end JsonPlan
