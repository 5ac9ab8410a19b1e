import JsonPlan.Program.Region

/-! The steps of an encoding program. -/

namespace JsonPlan

/-- The member that a region reads: slot `slot` of an object of type `owner`. -/
structure MemberRef where
  name : String
  owner : String
  slot : Nat
  deriving DecidableEq, Repr

/-- What opens a region. -/
inductive Opening where
  | list
  | map
  | member (member : MemberRef)
  | nullable
  deriving DecidableEq, Repr

def Opening.region : Opening → Region
  | list => .list
  | map => .map
  | member _ => .member
  | nullable => .nullable

/-- A write of one scalar. Where `quoted` is false the literals around carry the quotes. -/
inductive Leaf where
  | string (quoted : Bool)
  | char (quoted : Bool)
  | int
  | bool
  | guid (quoted : Bool)
  | float
  | double
  | date
  deriving DecidableEq, Repr

inductive Action where
  /-- Fixed text. -/
  | literal (text : String)
  | enter (opening : Opening)
  | leave (region : Region)
  | write (leaf : Leaf)
  deriving DecidableEq, Repr

namespace Action

/-- The region that an action opens. -/
def opens : Action → Option Region
  | enter o => some o.region
  | _ => none

/-- The region that an action closes. -/
def closes : Action → Option Region
  | leave r => some r
  | _ => none

def isLiteral : Action → Bool
  | literal _ => true
  | _ => false

/-- Whether two actions do the same; members count by name. -/
def agrees : Action → Action → Bool
  | enter (.member m), enter (.member n) => m.name = n.name
  | a, b => a = b

end Action
end JsonPlan
