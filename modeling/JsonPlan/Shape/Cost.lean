import JsonPlan.Program.Cost
import JsonPlan.Shape.Basic
import Mathlib.Algebra.GroupWithZero.Nat

/-!
Output sizes predicted from shapes alone, without bounds and without any program. The members of a
composite are taken as they are declared.
-/

namespace JsonPlan

variable {n : Nat}

/-- The members that are written. -/
def Member.kept (members : List (Member n)) (includeInherited : Bool) : List (Member n) :=
  members.filter fun m => includeInherited || !m.inherited

namespace Schema

/-- What a member adds to its composite, commas aside: its name with the colon, its quotes if it has
any, and its value. -/
def memberSize (S : Schema n) (size : Fin n → Nat) (m : Member n) : Nat :=
  m.escapedName.utf8ByteSize + (if (S m.shape).kind.isStringLike then 2 else 0) + size m.shape

/-- `x` bytes are predicted for `t`. -/
inductive Predicts (S : Schema n) (costs : CostTable) (includeInherited : Bool) :
    Fin n → Nat → Prop where
  | primitive {t : Fin n} {p : Primitive} (kind : (S t).kind = .primitive p) :
      Predicts S costs includeInherited t (costs.leafCost (p.leaf true))
  | string {t : Fin n} (kind : (S t).kind = .string) :
      Predicts S costs includeInherited t (costs.leafCost (.string true))
  | optional {t u : Fin n} {x : Nat} (kind : (S t).kind = .optional u) :
      Predicts S costs includeInherited u x → Predicts S costs includeInherited t x
  | sequence {t u : Fin n} {x : Nat} (kind : (S t).kind = .sequence u) :
      Predicts S costs includeInherited u x →
      Predicts S costs includeInherited t (costs.fanOut * x + (2 + (costs.fanOut - 1)))
  | map {t key u : Fin n} {x : Nat} (kind : (S t).kind = .map key u) :
      Predicts S costs includeInherited u x →
      Predicts S costs includeInherited t (costs.fanOut * x + (2 + (costs.fanOut - 1)))
  | composite {t : Fin n} {owner : String} {members : List (Member n)} (size : Fin n → Nat)
      (kind : (S t).kind = .composite owner members)
      (each : ∀ m ∈ Member.kept members includeInherited,
        Predicts S costs includeInherited m.shape (size m.shape)) :
      Predicts S costs includeInherited t
        (2 + ((Member.kept members includeInherited).length - 1) +
          ((Member.kept members includeInherited).map (S.memberSize size)).sum)

end Schema

/-! ## Other orders -/

/-- Two kinds are the same, but for the order in which members are declared. -/
inductive Kind.Reorders : Kind n → Kind n → Prop where
  | same (k : Kind n) : Reorders k k
  | composite (owner : String) {members members' : List (Member n)} :
      members.Perm members' → Reorders (.composite owner members) (.composite owner members')

/-- Two schemas describe the same shapes, but for their names and the order of members. -/
def Schema.Reorders (S S' : Schema n) : Prop := ∀ t, (S t).kind.Reorders (S' t).kind

end JsonPlan
