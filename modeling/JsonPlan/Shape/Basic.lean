import JsonPlan.Error
import JsonPlan.Json.Escape
import JsonPlan.Program.Action

/-!
What types look like. A schema is a finite table of shapes, which refer to each other by their
places in it.
-/

namespace JsonPlan

inductive Primitive where
  | bool
  | int
  | float
  | double
  | char
  | guid
  | date
  deriving DecidableEq, Repr

/-- Where a member's data lies inside its value. -/
inductive Origin where
  /-- Stored at an offset. -/
  | field (offset : Nat)
  /-- Computed from the fields at these offsets; none if they are unknown. -/
  | property (reads : List Nat)
  deriving DecidableEq, Repr

/-- A member of a composite whose schema has `n` shapes. -/
structure Member (n : Nat) where
  name : String
  origin : Origin
  /-- Declared on an embedded base type. -/
  inherited : Bool
  shape : Fin n
  /-- Which of an object's values the member reads. -/
  slot : Nat
  deriving DecidableEq, Repr

inductive Kind (n : Nat) where
  | primitive (p : Primitive)
  | string
  /-- May be absent. -/
  | optional (inner : Fin n)
  | sequence (element : Fin n)
  | map (key value : Fin n)
  /-- Members, which are read from objects of type `owner`. -/
  | composite (owner : String) (members : List (Member n))
  /-- Has no encoding. -/
  | unencodable
  deriving DecidableEq, Repr

structure Shape (n : Nat) where
  name : String
  kind : Kind n
  deriving DecidableEq, Repr

/-- The shapes by place; places are their identities. -/
abbrev Schema (n : Nat) := Fin n → Shape n

def Primitive.leaf (quoted : Bool) : Primitive → Leaf
  | bool => .bool
  | int => .int
  | float => .float
  | double => .double
  | char => .char quoted
  | guid => .guid quoted
  | date => .date

/-- Whether every value of a kind is written between quotes. An optional one may be `null`. -/
def Kind.isStringLike {n : Nat} : Kind n → Bool
  | string | primitive .char | primitive .guid => true
  | _ => false

/-- The write of a string-like value whose quotes stand in the literals around. -/
def Shape.unquotedLeaf {n : Nat} (s : Shape n) : Except Error Leaf :=
  match s.kind with
  | .string => .ok (.string false)
  | .primitive p => .ok (p.leaf false)
  | _ => .error (.unsupportedShape s.name)

namespace Member

variable {n : Nat}

def isField (m : Member n) : Bool :=
  match m.origin with
  | .field _ => true
  | .property _ => false

/-- The least offset that a member is read from, if one is known. -/
def position (m : Member n) : Option Nat :=
  match m.origin with
  | .field offset => some offset
  | .property reads => reads.min?

/-- What is written before the member's value. -/
def escapedName (m : Member n) : String := Json.memberName m.name

/-- The reference that a program of `owner` reads the member by. -/
def ref (owner : String) (m : Member n) : MemberRef := ⟨m.name, owner, m.slot⟩

end Member
end JsonPlan
