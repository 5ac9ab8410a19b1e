import JsonPlan.Output.Scalar
import JsonPlan.Output.Trace
import JsonPlan.Program.Basic
import JsonPlan.View.Basic

/-!
Running a program on a view. A region's body runs once for each entry of a list or map, once for the
value of a member, and not at all for an absent value.
-/

namespace JsonPlan

/-- The options that matter while a value is written. -/
structure Style where
  dateFormat : DateFormat
  jsonp : Bool
  deriving DecidableEq, Repr

/-- What a leaf expects to find. -/
def Leaf.expected : Leaf → String
  | string _ => "a string"
  | char _ => "a char"
  | int => "an integer"
  | bool => "a bool"
  | guid _ => "a guid"
  | float => "an f32"
  | double => "an f64"
  | date => "a date"

/-- The chunks of a scalar, if the leaf fits it. Every leaf writes an absent value. -/
def Leaf.chunks? (style : Style) : Leaf → View → Option (List String)
  | _, .null => some ["null"]
  | string true, .str s => some (Json.quotedChunks style.jsonp s)
  | string false, .str s => some (Json.escapedChunks style.jsonp s)
  | char true, .char c => some (Json.quotedChunks style.jsonp c.toString)
  | char false, .char c => some (Json.escapedChunks style.jsonp c.toString)
  | int, .int v => some (Scalar.int v)
  | int, .uint v => some (Scalar.uint v)
  | bool, .bool b => some (Scalar.bool b)
  | guid true, .guid g => some (Scalar.quotedGuid g)
  | guid false, .guid g => some (Scalar.guid g)
  | float, .float v => some (Scalar.float v)
  | double, .double v => some (Scalar.double v)
  | date, .date d => some (Scalar.date d style.dateFormat)
  | _, _ => none

def Leaf.trace (style : Style) (leaf : Leaf) (v : View) : Trace :=
  match leaf.chunks? style v with
  | some chunks => .emit chunks
  | none => .fail (v.mismatch leaf.expected)

namespace Trace

/-- Items in brackets. -/
def array (items : List Trace) : Trace := emit ["["] ++ separated items ++ emit ["]"]

/-- An entry, whose key must be a text, after `lead`. -/
def entry (style : Style) (lead : List String) : View × Trace → Trace
  | (.str key, value) => emit (lead ++ Json.quotedChunks style.jsonp key ++ [":"]) ++ value
  | (key, _) => fail (key.mismatch "a string key")

/-- Entries one after another, each after a comma. -/
def commaLedEntries (style : Style) : List (View × Trace) → Trace
  | [] => done
  | e :: rest => entry style [","] e ++ commaLedEntries style rest

/-- Entries in braces. A key is looked at before the comma in front of it is written. -/
def object (style : Style) (entries : List (View × Trace)) : Trace :=
  emit ["\x7b"] ++
    (match entries with
      | [] => done
      | e :: rest => entry style [] e ++ commaLedEntries style rest) ++
    emit ["\x7d"]

end Trace

/-- Runs steps on a view. -/
def run (style : Style) (steps : List Step) (v : View) : Trace :=
  match steps with
  | [] => .done
  | ⟨.literal text, _⟩ :: rest => .emit [text] ++ run style rest v
  | ⟨.leave _, _⟩ :: rest => run style rest v
  | ⟨.write leaf, _⟩ :: rest => leaf.trace style v ++ run style rest v
  | ⟨.enter .nullable, span⟩ :: rest =>
    if v.isNull then .emit ["null"] ++ run style (rest.drop span) v else run style rest v
  | ⟨.enter .list, span⟩ :: rest =>
    (match v with
      | .null => .emit ["null"]
      | .seq items => .array (items.map fun item => run style (rest.take (span - 1)) item)
      | other => .fail (other.mismatch "a sequence")) ++
    run style (rest.drop span) v
  | ⟨.enter .map, span⟩ :: rest =>
    (match v with
      | .null => .emit ["null"]
      | .map entries =>
        .object style (entries.map fun e => (e.1, run style (rest.take (span - 1)) e.2))
      | other => .fail (other.mismatch "a map")) ++
    run style (rest.drop span) v
  | ⟨.enter (.member m), span⟩ :: rest =>
    (match v with
      | .object type fields =>
        if type = m.owner then
          match _h : fields[m.slot]? with
          | some w => run style (rest.take (span - 1)) w
          | none => .done
        else .fail (.shapeMismatch m.owner)
      | other => .fail (other.mismatch "an object")) ++
    run style (rest.drop span) v
termination_by (v, steps.length)
decreasing_by
  all_goals first
    | exact .left _ _ (View.sizeOf_lt_seq (by assumption))
    | exact .left _ _ (View.sizeOf_lt_map (by assumption))
    | exact .left _ _ (View.sizeOf_lt_object (by assumption))
    | exact .right _ (by simp only [List.length_cons, List.length_drop]; omega)

theorem run_nil (style : Style) (v : View) : run style [] v = .done := by
  rw [run]

end JsonPlan
