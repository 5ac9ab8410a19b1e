import JsonPlan.Machine
import JsonPlan.Output.Writing

/-! Running a program straight into a sink. -/

namespace JsonPlan

variable {σ : Type} [Sink σ]

/-- The write of a scalar, if the leaf fits it. Every leaf writes an absent value. -/
def Leaf.writing? (style : Style) : Leaf → View → Option (Writing σ)
  | _, .null => some (.text "null")
  | string true, .str s => some (.quoted style.jsonp s)
  | string false, .str s => some (.escaped style.jsonp s)
  | char true, .char c => some (.quoted style.jsonp c.toString)
  | char false, .char c => some (.escaped style.jsonp c.toString)
  | int, .int v => some (.int v.toInt)
  | int, .uint v => some (.text (Decimal.numeral v.toNat))
  | bool, .bool b => some (.text (if b then "true" else "false"))
  | guid true, .guid g => some (.quotedGuid g)
  | guid false, .guid g => some (.text g.text)
  | float, .float v => some (.fixed .single (v.datum.widen .binary64))
  | double, .double v => some (.fixed .double v.datum)
  | date, .date d => some (.date d style.dateFormat)
  | _, _ => none

def Leaf.writing (style : Style) (leaf : Leaf) (v : View) : Writing σ :=
  match leaf.writing? style v with
  | some w => w
  | none => .fail (v.mismatch leaf.expected)

namespace Writing

/-- One after another, each after a comma. -/
def commaLed : List (Writing σ) → Writing σ
  | [] => done
  | w :: ws => char ',' ++ (w ++ commaLed ws)

/-- One after another, with a comma between neighbours. -/
def separated : List (Writing σ) → Writing σ
  | [] => done
  | w :: ws => w ++ commaLed ws

/-- Items in brackets. -/
def array (items : List (Writing σ)) : Writing σ := char '[' ++ separated items ++ char ']'

/-- An entry, whose key must be a text, after `lead`. -/
def entry (style : Style) (lead : Writing σ) : View × Writing σ → Writing σ
  | (.str key, value) => lead ++ quoted style.jsonp key ++ char ':' ++ value
  | (key, _) => fail (key.mismatch "a string key")

/-- Entries one after another, each after a comma. -/
def commaLedEntries (style : Style) : List (View × Writing σ) → Writing σ
  | [] => done
  | e :: rest => entry style (char ',') e ++ commaLedEntries style rest

/-- Entries in braces. A key is looked at before the comma in front of it is written. -/
def object (style : Style) (entries : List (View × Writing σ)) : Writing σ :=
  char '\x7b' ++
    (match entries with
      | [] => done
      | e :: rest => entry style done e ++ commaLedEntries style rest) ++
    char '\x7d'

end Writing

/-- Runs steps on a view, into a sink. -/
def runInto (style : Style) (steps : List Step) (v : View) : Writing σ :=
  match steps with
  | [] => .done
  | ⟨.literal text, _⟩ :: rest => .text text ++ runInto style rest v
  | ⟨.leave _, _⟩ :: rest => runInto style rest v
  | ⟨.write leaf, _⟩ :: rest => leaf.writing style v ++ runInto style rest v
  | ⟨.enter .nullable, span⟩ :: rest =>
    if v.isNull then .text "null" ++ runInto style (rest.drop span) v else runInto style rest v
  | ⟨.enter .list, span⟩ :: rest =>
    (match v with
      | .null => .text "null"
      | .seq items => .array (items.map fun item => runInto style (rest.take (span - 1)) item)
      | other => .fail (other.mismatch "a sequence")) ++
    runInto style (rest.drop span) v
  | ⟨.enter .map, span⟩ :: rest =>
    (match v with
      | .null => .text "null"
      | .map entries =>
        .object style (entries.map fun e => (e.1, runInto style (rest.take (span - 1)) e.2))
      | other => .fail (other.mismatch "a map")) ++
    runInto style (rest.drop span) v
  | ⟨.enter (.member m), span⟩ :: rest =>
    (match v with
      | .object type fields =>
        if type = m.owner then
          match _h : fields[m.slot]? with
          | some w => runInto style (rest.take (span - 1)) w
          | none => .done
        else .fail (.shapeMismatch m.owner)
      | other => .fail (other.mismatch "an object")) ++
    runInto style (rest.drop span) v
termination_by (v, steps.length)
decreasing_by
  all_goals first
    | exact .left _ _ (View.sizeOf_lt_seq (by assumption))
    | exact .left _ _ (View.sizeOf_lt_map (by assumption))
    | exact .left _ _ (View.sizeOf_lt_object (by assumption))
    | exact .right _ (by simp only [List.length_cons, List.length_drop]; omega)

end JsonPlan
