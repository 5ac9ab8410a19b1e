import JsonPlan.Json.Value
import JsonPlan.Options.Basic

/-! Options as a JSON object with six fields, or as an array of the fields in that order. -/

namespace JsonPlan.Options

inductive DecodeError where
  /-- A date style that no selector names. -/
  | selector (error : Error)
  /-- A tree of the wrong form. -/
  | form
  deriving DecidableEq, Repr

private def switch : Json → Except DecodeError Bool
  | .bool b => .ok b
  | _ => .error .form

/-- The fields in the order in which they are written. -/
inductive Field where
  | dateFormat
  | jsonpCallback
  | excludeNulls
  | includeInherited
  | prettyPrint
  | recordSizes
  deriving DecidableEq, Repr

namespace Field

def all : List Field :=
  [dateFormat, jsonpCallback, excludeNulls, includeInherited, prettyPrint, recordSizes]

def name : Field → String
  | dateFormat => "date_format"
  | jsonpCallback => "jsonp_callback"
  | excludeNulls => "exclude_nulls"
  | includeInherited => "include_inherited"
  | prettyPrint => "pretty_print"
  | recordSizes => "record_sizes"

/-- Sets a field from a tree. Only the callback may be null. -/
def set (o : Options) : Field → Json → Except DecodeError Options
  | dateFormat, .string s =>
    match DateFormat.ofText s with
    | .ok f => .ok { o with dateFormat := f }
    | .error e => .error (.selector e)
  | dateFormat, _ => .error .form
  | jsonpCallback, .string s => .ok { o with jsonpCallback := some s }
  | jsonpCallback, .null => .ok { o with jsonpCallback := none }
  | jsonpCallback, _ => .error .form
  | excludeNulls, j => (switch j).map fun b => { o with excludeNulls := b }
  | includeInherited, j => (switch j).map fun b => { o with includeInherited := b }
  | prettyPrint, j => (switch j).map fun b => { o with prettyPrint := b }
  | recordSizes, j => (switch j).map fun b => { o with recordSizes := b }

/-- The tree of a field. -/
def get (o : Options) : Field → Json
  | dateFormat => .string o.dateFormat.selector
  | jsonpCallback => (o.jsonpCallback.map Json.string).getD .null
  | excludeNulls => .bool o.excludeNulls
  | includeInherited => .bool o.includeInherited
  | prettyPrint => .bool o.prettyPrint
  | recordSizes => .bool o.recordSizes

end Field

/-- Sets fields from the left; names that no field has are skipped. -/
def ofEntries (o : Options) : List (String × Json) → Except DecodeError Options
  | [] => .ok o
  | (name, j) :: rest =>
    match Field.all.find? (·.name = name) with
    | none => ofEntries o rest
    | some f => do ofEntries (← f.set o j) rest

/-- Sets the fields of an array by position; there may be fewer than fields, not more. -/
def ofItems (o : Options) : List Field → List Json → Except DecodeError Options
  | _, [] => .ok o
  | [], _ :: _ => .error .form
  | f :: fs, j :: js => do ofItems (← f.set o j) fs js

/-- Reads options; a field that is not given keeps its default. -/
def ofJson : Json → Except DecodeError Options
  | .object entries => ofEntries .default entries
  | .array items => ofItems .default Field.all items
  | _ => .error .form

def toJson (o : Options) : Json := .object (Field.all.map fun f => (f.name, f.get o))

end JsonPlan.Options
