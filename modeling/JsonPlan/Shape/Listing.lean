import JsonPlan.Decimal.Numeral
import JsonPlan.Shape.Basic
import JsonPlan.Text.Quoted

/-! Shapes as a reader sees them: the shapes that one refers to are given by name. -/

namespace JsonPlan

open Decimal (numeral)

/-- A name with labelled parts in braces. -/
private def record (name : String) (parts : List (String × String)) : String :=
  name ++ " \x7b " ++ ", ".intercalate (parts.map fun p => p.1 ++ ": " ++ p.2) ++ " \x7d"

def Primitive.label : Primitive → String
  | bool => "Bool"
  | int => "Int"
  | float => "Float"
  | double => "Double"
  | char => "Char"
  | guid => "Guid"
  | date => "Date"

def Origin.listing : Origin → String
  | field offset => record "Field" [("offset", numeral offset)]
  | property reads =>
    record "Property" [("reads", "[" ++ ", ".intercalate (reads.map numeral) ++ "]")]

def Member.listing {n : Nat} (m : Member n) : String :=
  record "Member" [("name", Text.quoted m.name), ("kind", m.origin.listing),
    ("inherited", if m.inherited then "true" else "false")]

namespace Schema

variable {n : Nat} (S : Schema n)

def kindListing : Kind n → String
  | .primitive p => "Primitive(" ++ p.label ++ ")"
  | .string => "String"
  | .optional inner => "Optional(" ++ Text.quoted (S inner).name ++ ")"
  | .sequence element => "Sequence(" ++ Text.quoted (S element).name ++ ")"
  | .map key value =>
    record "Map" [("key", Text.quoted (S key).name), ("value", Text.quoted (S value).name)]
  | .composite _ members => "Composite([" ++ ", ".intercalate (members.map Member.listing) ++ "])"
  | .unencodable => "Opaque"

def listing (t : Fin n) : String :=
  record "TypeShape" [("name", Text.quoted (S t).name), ("kind", S.kindListing (S t).kind)]

end Schema
end JsonPlan
