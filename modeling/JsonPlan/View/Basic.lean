import JsonPlan.Binary.Format
import JsonPlan.Calendar.Instant
import JsonPlan.Error
import JsonPlan.Guid

/-! What a value shows while it is written. Nothing ties a view to a shape. -/

namespace JsonPlan

inductive View where
  | null
  | bool (b : Bool)
  | int (v : Int64)
  | uint (v : UInt64)
  | float (v : Binary.Binary32)
  | double (v : Binary.Binary64)
  | char (c : Char)
  | str (s : String)
  | guid (g : Guid)
  | date (d : Calendar.Instant)
  | seq (items : List View)
  /-- Entries in order, with keys of any kind. -/
  | map (entries : List (View × View))
  /-- A composite value: its type and what its members show, by slot. -/
  | object (type : String) (fields : List View)
  deriving Inhabited

namespace View

def isNull : View → Bool
  | null => true
  | _ => false

/-- The kind of a view, as mismatches name it. -/
def kindName : View → String
  | null => "null"
  | bool _ => "bool"
  | int _ | uint _ => "integer"
  | float _ | double _ => "float"
  | char _ => "char"
  | str _ => "string"
  | guid _ => "guid"
  | date _ => "date"
  | seq _ => "sequence"
  | map _ => "map"
  | object _ _ => "object"

/-- What a slot of a composite value shows; nothing else has slots. -/
def slot (v : View) (i : Nat) : View :=
  match v with
  | object _ fields => fields.getD i null
  | _ => null

/-- The text of a key. -/
def keyText : View → String
  | str s => s
  | _ => ""

/-- A view that is not what its shape announced. -/
def mismatch (expected : String) (found : View) : Error :=
  .shapeMismatch (expected ++ ", found " ++ found.kindName)

theorem eq_null_of_isNull {v : View} (h : v.isNull = true) : v = null := by
  cases v <;> simp [isNull] at h ⊢

theorem slot_object {type : String} {fields : List View} {i : Nat} {v : View}
    (h : fields[i]? = some v) : (object type fields).slot i = v := by
  simp [slot, List.getD, h]

theorem sizeOf_lt_seq {items : List View} {v : View} (h : v ∈ items) :
    sizeOf v < sizeOf (seq items) := by
  have := List.sizeOf_lt_of_mem h
  simp only [seq.sizeOf_spec]; omega

theorem sizeOf_lt_map {entries : List (View × View)} {e : View × View} (h : e ∈ entries) :
    sizeOf e.2 < sizeOf (map entries) := by
  have := List.sizeOf_lt_of_mem h
  rcases e with ⟨k, v⟩
  simp only [map.sizeOf_spec, Prod.mk.sizeOf_spec] at *; omega

theorem sizeOf_lt_object {type : String} {fields : List View} {i : Nat} {v : View}
    (h : fields[i]? = some v) : sizeOf v < sizeOf (object type fields) := by
  have := List.sizeOf_lt_of_mem (List.mem_of_getElem? h)
  simp only [object.sizeOf_spec]; omega

end View
end JsonPlan
