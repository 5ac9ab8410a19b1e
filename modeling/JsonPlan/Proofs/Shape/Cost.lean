import JsonPlan.Proofs.Layout.Cost
import JsonPlan.Proofs.Layout.Unfolding
import JsonPlan.Proofs.Shape.Defect
import JsonPlan.Proofs.Shape.Order
import JsonPlan.Shape.Cost

/-!
One size is predicted for a shape that unfolds, that of its layout. It is the same in whatever order
members are declared.
-/

namespace JsonPlan.Schema

variable {n : Nat} {S S' : Schema n} {costs : CostTable} {includeInherited : Bool}

theorem Predicts.unique {t : Fin n} {x y : Nat} (hx : S.Predicts costs includeInherited t x)
    (hy : S.Predicts costs includeInherited t y) : x = y := by
  induction hx generalizing y with
  | primitive kind => cases hy <;> simp_all
  | string kind => cases hy <;> simp_all
  | optional kind _ ih =>
      cases hy with
      | optional kind' h =>
          rw [kind] at kind'
          cases kind'
          exact ih h
      | _ => simp_all
  | sequence kind _ ih =>
      cases hy with
      | sequence kind' h =>
          rw [kind] at kind'
          cases kind'
          rw [ih h]
      | _ => simp_all
  | map kind _ ih =>
      cases hy with
      | map kind' h =>
          rw [kind] at kind'
          cases kind'
          rw [ih h]
      | _ => simp_all
  | composite size kind _ ih =>
      cases hy with
      | composite size' kind' h =>
          rw [kind] at kind'
          cases kind'
          rw [List.map_congr_left fun m hm => by
            rw [memberSize, ih m hm (h m hm), ← memberSize]]
      | _ => simp_all

/-! ## Layouts -/

/-- The members of a composite cost what their places and layouts do. -/
theorem sum_memberCost {members : List (Member n)} {inner : List (Place × Layout)}
    (hplaces : inner.map Prod.fst = members.map Member.toPlace) (size : Fin n → Nat)
    (heach : ∀ p ∈ members.zip inner, S.Unfolds includeInherited p.1.shape p.2.2 ∧
      size p.1.shape = p.2.2.cost costs) :
    (inner.map (Layout.memberCost costs)).sum = (members.map (S.memberSize size)).sum := by
  induction members generalizing inner with
  | nil =>
      have hnil : inner = [] := by simpa using hplaces
      rw [hnil]
      rfl
  | cons m rest ih =>
      obtain ⟨⟨place, L⟩, others, rfl⟩ := List.exists_cons_of_length_eq_add_one
        (l := inner) (n := rest.length) (by simpa using congrArg List.length hplaces)
      simp only [List.map_cons, List.cons.injEq] at hplaces
      obtain ⟨hunfolds, hsize⟩ := heach (m, place, L) (by simp)
      have hhead : Layout.memberCost costs (place, L) = S.memberSize size m := by
        rw [Layout.memberCost, memberSize, hsize, ← hunfolds.isStringLike_eq, hplaces.1]
        rfl
      rw [List.map_cons, List.map_cons, List.sum_cons, List.sum_cons, hhead,
        ih hplaces.2 fun p hp => heach p (by simp [hp])]

/-- The cost of the layout of each shape that has one. -/
def layoutSize (S : Schema n) (costs : CostTable) (includeInherited : Bool) (t : Fin n) : Nat :=
  match S.layout includeInherited t with
  | .ok L => L.cost costs
  | .error _ => 0

theorem layoutSize_eq {t : Fin n} {L : Layout} (h : S.Unfolds includeInherited t L) :
    S.layoutSize costs includeInherited t = L.cost costs := by
  rw [layoutSize, layout_eq_ok_iff.mpr h]

theorem predicts_of_unfolds {t : Fin n} {L : Layout} (h : S.Unfolds includeInherited t L) :
    S.Predicts costs includeInherited t (L.cost costs) := by
  induction h with
  | primitive kind =>
      rw [Layout.cost_atom]
      exact .primitive kind
  | string kind =>
      rw [Layout.cost_atom]
      exact .string kind
  | optional kind _ ih =>
      rw [Layout.cost_optional]
      exact .optional kind ih
  | sequence kind _ ih =>
      rw [Layout.cost_sequence]
      exact .sequence kind ih
  | map kind _ _ ih =>
      rw [Layout.cost_map]
      exact .map kind ih
  | @composite t owner members inner kind places unfolds ih =>
      -- The layouts stand in memory order, the members of the prediction as they are declared.
      have hperm : (Member.order members includeInherited).Perm
          (Member.kept members includeInherited) := Member.order_perm members includeInherited
      have hlength : inner.length = (Member.kept members includeInherited).length := by
        rw [← hperm.length_eq]
        simpa using congrArg List.length places
      have hsum : (inner.map (Layout.memberCost costs)).sum =
          ((Member.kept members includeInherited).map
            (S.memberSize (S.layoutSize costs includeInherited))).sum := by
        rw [← (hperm.map _).sum_nat]
        exact sum_memberCost places _ fun p hp => ⟨unfolds p hp, layoutSize_eq (unfolds p hp)⟩
      rw [Layout.cost_composite, hlength, hsum]
      refine .composite _ kind fun m hm => ?_
      obtain ⟨p, -, hzip⟩ := mem_of_mem_zip_shape places (hperm.mem_iff.mpr hm)
      rw [layoutSize_eq (unfolds _ hzip)]
      exact ih _ hzip

/-! ## Other orders -/

namespace Reorders

theorem symm (h : S.Reorders S') : S'.Reorders S := by
  intro t
  have ht := h t
  generalize (S t).kind = k, (S' t).kind = k' at ht
  cases ht with
  | same => exact .same k
  | composite owner hperm => exact .composite owner hperm.symm

theorem isStringLike_eq (h : S.Reorders S') (t : Fin n) :
    (S t).kind.isStringLike = (S' t).kind.isStringLike := by
  have ht := h t
  generalize (S t).kind = k, (S' t).kind = k' at ht
  cases ht <;> rfl

/-- Only a composite has another one in its place. -/
theorem kind_eq (h : S.Reorders S') {t : Fin n} {k : Kind n} (hk : (S t).kind = k)
    (hother : ∀ owner members, k ≠ .composite owner members) : (S' t).kind = k := by
  have ht := h t
  rw [hk] at ht
  generalize (S' t).kind = k' at ht
  cases ht with
  | same => rfl
  | composite owner hperm => exact absurd rfl (hother _ _)

theorem composite (h : S.Reorders S') {t : Fin n} {owner : String} {members : List (Member n)}
    (hk : (S t).kind = .composite owner members) :
    ∃ members', (S' t).kind = .composite owner members' ∧ members.Perm members' := by
  have ht := h t
  rw [hk] at ht
  generalize (S' t).kind = k' at ht
  cases ht with
  | same => exact ⟨members, rfl, .refl _⟩
  | composite owner hperm => exact ⟨_, rfl, hperm⟩

theorem predicts (h : S.Reorders S') {t : Fin n} {x : Nat}
    (hx : S.Predicts costs includeInherited t x) : S'.Predicts costs includeInherited t x := by
  induction hx with
  | primitive kind => exact .primitive (h.kind_eq kind (by simp))
  | string kind => exact .string (h.kind_eq kind (by simp))
  | optional kind _ ih => exact .optional (h.kind_eq kind (by simp)) ih
  | sequence kind _ ih => exact .sequence (h.kind_eq kind (by simp)) ih
  | map kind _ ih => exact .map (h.kind_eq kind (by simp)) ih
  | @composite t owner members size kind _ ih =>
      obtain ⟨members', kind', hperm⟩ := h.composite kind
      have hkept : (Member.kept members includeInherited).Perm
          (Member.kept members' includeInherited) := hperm.filter _
      have hsize : S.memberSize size = S'.memberSize size := by
        funext m
        rw [memberSize, memberSize, h.isStringLike_eq]
      rw [hkept.length_eq, (hkept.map _).sum_nat, hsize]
      exact .composite size kind' fun m hm => ih m (hkept.mem_iff.mpr hm)

theorem mem_parts (h : S.Reorders S') {t u : Fin n} (hu : u ∈ S.parts includeInherited t) :
    u ∈ S'.parts includeInherited t := by
  rw [parts] at hu ⊢
  cases hk : (S t).kind with
  | composite owner members =>
      obtain ⟨members', hk', hperm⟩ := h.composite hk
      have horder := ((Member.order_perm members includeInherited).trans
        (hperm.filter _)).trans (Member.order_perm members' includeInherited).symm
      rw [hk] at hu
      rw [hk']
      simp only [List.mem_filter, List.mem_map, ← h.isStringLike_eq] at hu ⊢
      obtain ⟨⟨m, hm, rfl⟩, hlike⟩ := hu
      exact ⟨⟨m, horder.mem_iff.mp hm, rfl⟩, hlike⟩
  | _ =>
      rw [hk] at hu
      rwa [h.kind_eq hk (by simp)]

theorem reaches (h : S.Reorders S') {t u : Fin n} (hu : S.Reaches includeInherited t u) :
    S'.Reaches includeInherited t u := by
  induction hu with
  | here => exact .here
  | part _ hv ih => exact .part ih (h.mem_parts hv)

/-- What keeps a shape from having a program is a matter of its graph. -/
theorem compilable (h : S.Reorders S') {t : Fin n} (ht : S.Compilable includeInherited t) :
    S'.Compilable includeInherited t where
  acyclic hu hv hback :=
    ht.acyclic (h.symm.reaches hu) (h.symm.mem_parts hv) (h.symm.reaches hback)
  encodable hu hk := ht.encodable (h.symm.reaches hu) (h.symm.kind_eq hk (by simp))
  textKeys hu hk :=
    h.kind_eq (ht.textKeys (h.symm.reaches hu) (h.symm.kind_eq hk (by simp))) (by simp)

end Reorders
end JsonPlan.Schema
