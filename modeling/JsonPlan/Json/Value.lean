import JsonPlan.Decimal.Numeral
import JsonPlan.Json.Escape

/-! JSON trees. Objects keep the order of their entries, and repeated names. -/

namespace JsonPlan

/-- A decimal `mantissa / 10 ^ places`. -/
structure Json.Number where
  mantissa : Int
  places : Nat
  deriving DecidableEq, Repr

def Json.Number.value (n : Json.Number) : Rat := mkRat n.mantissa (10 ^ n.places)

inductive Json where
  | null
  | bool (b : Bool)
  | number (n : Json.Number)
  | string (s : String)
  | array (items : List Json)
  | object (entries : List (String × Json))
  deriving Inhabited, Repr

namespace Json

theorem sizeOf_lt_array {items : List Json} {j : Json} (h : j ∈ items) :
    sizeOf j < sizeOf (array items) := by
  have := List.sizeOf_lt_of_mem h
  simp only [array.sizeOf_spec]; omega

theorem sizeOf_lt_object {entries : List (String × Json)} {e : String × Json} (h : e ∈ entries) :
    sizeOf e.2 < sizeOf (object entries) := by
  have := List.sizeOf_lt_of_mem h
  rcases e with ⟨k, j⟩
  simp only [object.sizeOf_spec, Prod.mk.sizeOf_spec] at *; omega

end Json
end JsonPlan
