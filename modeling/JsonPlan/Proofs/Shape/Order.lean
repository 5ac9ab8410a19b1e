import JsonPlan.Shape.Order
import Mathlib.Data.List.Sort
import Mathlib.Data.Prod.Lex
import Mathlib.Order.WithBot

/-!
Ordering members is an insertion sort: no member is lost and none is made up. The order is total, so
that members can be left out before or after.
-/

namespace JsonPlan.Member

variable {n : Nat}

theorem insert_eq_orderedInsert (a : Member n) (members : List (Member n)) :
    insert a members = members.orderedInsert (fun a b => a.precedes b) a := by
  induction members with
  | nil => rfl
  | cons b rest ih => rw [insert, List.orderedInsert, ih]

theorem sort_eq_insertionSort (members : List (Member n)) :
    sort members = members.insertionSort fun a b => a.precedes b := by
  induction members with
  | nil => rfl
  | cons a rest ih =>
      rw [List.insertionSort_cons, ← ih, ← insert_eq_orderedInsert]
      rfl

theorem sort_perm (members : List (Member n)) : (sort members).Perm members := by
  rw [sort_eq_insertionSort]
  exact List.perm_insertionSort _ members

/-- The members to write are those that are kept, whatever order they are written in. -/
theorem order_perm (members : List (Member n)) (includeInherited : Bool) :
    (order members includeInherited).Perm
      (members.filter fun m => includeInherited || !m.inherited) :=
  sort_perm _

/-! ## Members left out -/

/-- What members are sorted by: their positions, unknown ones last, and fields before properties. -/
def rank (m : Member n) : WithTop Nat ×ₗ Bool :=
  toLex (m.position.elim ⊤ WithTop.some, !m.isField)

theorem precedes_iff {a b : Member n} : a.precedes b ↔ a.rank ≤ b.rank := by
  rw [rank, rank, Prod.Lex.toLex_le_toLex, precedes]
  cases a.position <;> cases b.position <;> cases a.isField <;> cases b.isField <;> simp [le_iff_lt_or_eq]

theorem precedes_total (a b : Member n) : a.precedes b ∨ b.precedes a := by
  simp only [precedes_iff]
  exact le_total a.rank b.rank

theorem precedes_trans {a b c : Member n} (hab : a.precedes b) (hbc : b.precedes c) :
    a.precedes c :=
  precedes_iff.mpr ((precedes_iff.mp hab).trans (precedes_iff.mp hbc))

theorem pairwise_sort (members : List (Member n)) :
    (sort members).Pairwise fun a b => a.precedes b := by
  have : Std.Total fun a b : Member n => (a.precedes b : Prop) := ⟨precedes_total⟩
  have : IsTrans (Member n) fun a b => a.precedes b := ⟨fun _ _ _ => precedes_trans⟩
  rw [sort_eq_insertionSort]
  exact List.pairwise_insertionSort _ members

theorem insert_of_forall_precedes {a : Member n} {members : List (Member n)}
    (h : ∀ b ∈ members, a.precedes b) : insert a members = a :: members := by
  cases members with
  | nil => rfl
  | cons b rest => rw [insert, if_pos (h b List.mem_cons_self)]

/-- A member finds the same place among the members that are left of a sorted list. -/
theorem filter_insert (keep : Member n → Bool) (a : Member n) {members : List (Member n)}
    (hsorted : members.Pairwise fun a b => a.precedes b) :
    (insert a members).filter keep =
      if keep a then insert a (members.filter keep) else members.filter keep := by
  induction members with
  | nil => cases ha : keep a <;> simp [insert, ha]
  | cons b rest ih =>
      have hrest := ih hsorted.tail
      rw [insert]
      by_cases hab : a.precedes b
      · -- What stands behind `b` is preceded by `a` as well, so that `b` may be missing.
        have hall : ∀ c ∈ (b :: rest).filter keep, a.precedes c := by
          intro c hc
          rcases List.mem_cons.mp (List.mem_filter.mp hc).1 with rfl | hc
          · exact hab
          · exact precedes_trans hab (List.rel_of_pairwise_cons hsorted hc)
        rw [if_pos hab, List.filter_cons, insert_of_forall_precedes hall]
      · rw [if_neg hab, List.filter_cons, hrest, List.filter_cons]
        cases hb : keep b <;> cases ha : keep a <;> simp [insert, hab]

/-- Sorting and leaving members out can be done in either order. -/
theorem sort_filter (keep : Member n → Bool) (members : List (Member n)) :
    sort (members.filter keep) = (sort members).filter keep := by
  induction members with
  | nil => rfl
  | cons a rest ih =>
      have hsorted : sort (a :: rest) = insert a (sort rest) := rfl
      rw [hsorted, filter_insert keep a (pairwise_sort rest), ← ih, List.filter_cons]
      split <;> rfl

/-- The members to write without the inherited ones stand in the same order as with them. -/
theorem order_false (members : List (Member n)) :
    order members false = (order members true).filter fun m => !m.inherited := by
  simp only [order, Bool.true_or, Bool.false_or, List.filter_true, ← sort_filter]

end JsonPlan.Member
