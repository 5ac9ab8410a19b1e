import JsonPlan.Binary.Format
import JsonPlan.Calendar.Instant
import JsonPlan.Decimal.Fixed
import JsonPlan.Guid
import JsonPlan.Options.DateFormat

/-! The chunks of scalars in a document. -/

namespace JsonPlan.Scalar

open Decimal Binary Calendar

def bool (b : Bool) : List String := [if b then "true" else "false"]

def int (v : Int64) : List String := intChunks v.toInt

def uint (v : UInt64) : List String := [numeral v.toNat]

/-- A single-precision float, as the double of the same value. -/
def float (v : Binary32) : List String := fixedChunks .single (v.datum.widen .binary64)

def double (v : Binary64) : List String := fixedChunks .double v.datum

/-- The identifier without quotes. -/
def guid (g : Guid) : List String := [g.text]

def quotedGuid (g : Guid) : List String := ["\"", g.text, "\""]

def date (d : Instant) : DateFormat → List String
  | .iso8601 => ["\"", d.iso, "\""]
  | .milliseconds => intChunks d.milliseconds
  | .seconds => intChunks d.seconds
  | .newtonsoft => "\"\\/Date(" :: (intChunks d.milliseconds ++ [")\\/\""])
  | .rfc1123 => ["\"", d.rfc1123, "\""]

end JsonPlan.Scalar
