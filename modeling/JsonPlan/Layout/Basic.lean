import JsonPlan.Shape.Order
import JsonPlan.Shape.Reach

/-!
The finite tree that a shape unfolds to: what is written, in which order, with every reference
followed. A shape that contains itself has none.
-/

namespace JsonPlan

/-- A scalar, without a word on who writes its quotes. -/
inductive Atom where
  | string
  | primitive (p : Primitive)
  deriving DecidableEq, Repr

namespace Atom

def leaf (quoted : Bool) : Atom → Leaf
  | string => .string quoted
  | primitive p => p.leaf quoted

/-- Whether an atom is written between quotes. -/
def isStringLike : Atom → Bool
  | string | primitive .char | primitive .guid => true
  | _ => false

end Atom

/-- The atom that a string-like kind is. -/
def Kind.stringLike? {n : Nat} : Kind n → Option Atom
  | .string => some .string
  | .primitive .char => some (.primitive .char)
  | .primitive .guid => some (.primitive .guid)
  | _ => none

/-- A member as a layout places it. -/
structure Place where
  name : String
  slot : Nat
  inherited : Bool
  deriving DecidableEq, Repr

inductive Layout where
  | atom (a : Atom)
  | optional (inner : Layout)
  | sequence (element : Layout)
  /-- A map by texts. -/
  | map (value : Layout)
  | composite (owner : String) (members : List (Place × Layout))
  deriving Inhabited

namespace Layout

theorem sizeOf_lt_composite {owner : String} {members : List (Place × Layout)} {m : Place × Layout}
    (h : m ∈ members) : sizeOf m.2 < sizeOf (composite owner members) := by
  have := List.sizeOf_lt_of_mem h
  rcases m with ⟨p, inner⟩
  simp only [composite.sizeOf_spec, Prod.mk.sizeOf_spec] at *; omega

/-- Induction with one hypothesis for each member of a composite. -/
@[induction_eliminator]
theorem members_induction {motive : Layout → Prop} (atom : ∀ a, motive (.atom a))
    (optional : ∀ inner, motive inner → motive (.optional inner))
    (sequence : ∀ element, motive element → motive (.sequence element))
    (map : ∀ value, motive value → motive (.map value))
    (composite : ∀ owner members, (∀ m ∈ members, motive m.2) → motive (.composite owner members))
    (L : Layout) : motive L :=
  match L with
  | .atom a => atom a
  | .optional inner =>
    optional inner (members_induction atom optional sequence map composite inner)
  | .sequence element =>
    sequence element (members_induction atom optional sequence map composite element)
  | .map value => map value (members_induction atom optional sequence map composite value)
  | .composite owner members =>
    composite owner members fun m _ =>
      members_induction atom optional sequence map composite m.2
termination_by L
decreasing_by
  all_goals first
    | exact sizeOf_lt_composite (by assumption)
    | decreasing_tactic

/-- Whether what a layout writes stands between quotes. -/
def isStringLike : Layout → Bool
  | atom a => a.isStringLike
  | _ => false

end Layout

def Member.toPlace {n : Nat} (m : Member n) : Place := ⟨m.name, m.slot, m.inherited⟩

/-- The reference that a program of `owner` reads the member by. -/
def Place.ref (owner : String) (p : Place) : MemberRef := ⟨p.name, owner, p.slot⟩

namespace Schema

variable {n : Nat} (S : Schema n)

/-- The layout of a member. One that is written between quotes unfolds no further. -/
def memberLayout (child : Fin n → Except Error Layout) (m : Member n) : Except Error Layout :=
  match (S m.shape).kind.stringLike? with
  | some a => .ok (.atom a)
  | none => child m.shape

def layoutMembers (child : Fin n → Except Error Layout) :
    List (Member n) → Except Error (List (Place × Layout))
  | [] => .ok []
  | m :: rest => do
    let inner ← S.memberLayout child m
    return (m.toPlace, inner) :: (← layoutMembers child rest)

/-- The layout of a shape, given those of the shapes that it refers to. -/
def unfold (includeInherited : Bool) (child : Fin n → Except Error Layout) (s : Shape n) :
    Except Error Layout :=
  match s.kind with
  | .primitive p => .ok (.atom (.primitive p))
  | .string => .ok (.atom .string)
  | .optional inner => (child inner).map .optional
  | .sequence element => (child element).map .sequence
  | .map key value =>
    match (S key).kind with
    | .string => (child value).map .map
    | _ => .error (.nonStringKey s.name (S key).name)
  | .composite owner members =>
    (S.layoutMembers child (Member.order members includeInherited)).map (.composite owner)
  | .unencodable => .error (.unsupportedShape s.name)

/-- The layout of a shape that was reached by `path`, or the first defect in depth-first order. -/
def layoutFrom (includeInherited : Bool) (path : List (Fin n)) (t : Fin n) : Except Error Layout :=
  if _ : t ∈ path then .error (.recursiveShape (S t).name)
  else S.unfold includeInherited (fun u => layoutFrom includeInherited (t :: path) u) (S t)
termination_by offPath path
decreasing_by exact offPath_cons_lt (by assumption)

def layout (includeInherited : Bool) (t : Fin n) : Except Error Layout :=
  S.layoutFrom includeInherited [] t

end Schema
end JsonPlan
