import JsonPlan.Proofs.Layout.Unfolding
import JsonPlan.Proofs.Layout.Visit
import JsonPlan.Proofs.Shape.Order
import JsonPlan.Shape.Accept

/-! A layout accepts the views that the shape it unfolds from accepts. -/

namespace JsonPlan

variable {v : View}

/-! ## Layouts -/

namespace Layout

theorem accepts_atom {a : Atom} :
    accepts (.atom a) v ↔ v.isNull ∨ (a.leaf true).matches v := by
  rw [accepts, Bool.or_eq_true]

theorem accepts_optional {inner : Layout} :
    accepts (.optional inner) v ↔ v.isNull ∨ accepts inner v := by
  rw [accepts, Bool.or_eq_true]

theorem accepts_sequence {element : Layout} :
    accepts (.sequence element) v ↔
      v.isNull ∨ ∃ items, v = .seq items ∧ ∀ w ∈ items, accepts element w := by
  rw [accepts.eq_def]
  cases v <;> simp [View.isNull]

theorem accepts_map {value : Layout} :
    accepts (.map value) v ↔
      v.isNull ∨ ∃ entries, v = .map entries ∧
        ∀ e ∈ entries, (∃ text, e.1 = .str text) ∧ accepts value e.2 := by
  rw [accepts.eq_def]
  cases v with
  | map entries =>
      simp only [List.all_eq_true, Bool.and_eq_true, View.map.injEq, exists_eq_left', View.isNull,
        Bool.false_eq_true, false_or]
      refine forall₂_congr fun e _ => and_congr_left' ?_
      cases e.1 <;> simp
  | _ => simp [View.isNull]

theorem accepts_composite {owner : String} {members : List (Place × Layout)} :
    accepts (.composite owner members) v ↔
      members = [] ∨ ∃ fields, v = .object owner fields ∧
        ∀ m ∈ members, ∀ w, fields[m.1.slot]? = some w → accepts m.2 w := by
  rw [accepts.eq_def]
  cases v with
  | object type fields =>
      simp only [Bool.or_eq_true, List.isEmpty_iff, Bool.and_eq_true, decide_eq_true_eq,
        List.all_eq_true, List.mem_map, forall_exists_index, and_imp, forall_apply_eq_imp_iff₂, id,
        View.object.injEq]
      refine or_congr_right ⟨?_, ?_⟩
      · rintro ⟨rfl, h⟩
        refine ⟨fields, ⟨rfl, rfl⟩, fun m hm w hw => ?_⟩
        simpa only [hw] using h m hm
      · rintro ⟨_, ⟨rfl, rfl⟩, h⟩
        refine ⟨rfl, fun m hm => ?_⟩
        split
        · exact h m hm _ (by assumption)
        · rfl
  | _ => simp

end Layout

/-! ## Shapes -/

theorem Member.mem_order {n : Nat} {members : List (Member n)} {includeInherited : Bool}
    {m : Member n} :
    m ∈ order members includeInherited ↔ m ∈ members ∧ m.Included includeInherited := by
  rw [(order_perm members includeInherited).mem_iff, List.mem_filter]
  simp [Included]

namespace Schema

variable {n : Nat} {S : Schema n} {includeInherited : Bool} {t u : Fin n}

theorem Accepts.of_isNull (hnull : v.isNull) (kind : (S t).kind.acceptsNull) :
    S.Accepts includeInherited t v := by
  rw [View.eq_null_of_isNull hnull]
  exact .null kind

theorem accepts_primitive {p : Primitive} (kind : (S t).kind = .primitive p) :
    S.Accepts includeInherited t v ↔ v.isNull ∨ (p.leaf true).matches v := by
  constructor
  · intro h
    cases h <;> simp_all [View.isNull]
  · rintro (hnull | hfits)
    · exact .of_isNull hnull (by rw [kind]; rfl)
    · exact .primitive kind hfits

theorem accepts_string (kind : (S t).kind = .string) :
    S.Accepts includeInherited t v ↔ v.isNull ∨ (Leaf.string true).matches v := by
  constructor
  · intro h
    cases h <;> simp_all [View.isNull, Leaf.matches]
  · rintro (hnull | hfits)
    · exact .of_isNull hnull (by rw [kind]; rfl)
    · cases v with
      | str text => exact .string kind
      | _ => cases hfits

theorem accepts_optional (kind : (S t).kind = .optional u) :
    S.Accepts includeInherited t v ↔ v.isNull ∨ S.Accepts includeInherited u v := by
  constructor
  · intro h
    cases h <;> simp_all [View.isNull]
  · rintro (hnull | h)
    · exact .of_isNull hnull (by rw [kind]; rfl)
    · exact .optional kind h

theorem accepts_sequence (kind : (S t).kind = .sequence u) :
    S.Accepts includeInherited t v ↔
      v.isNull ∨ ∃ items, v = .seq items ∧ ∀ w ∈ items, S.Accepts includeInherited u w := by
  constructor
  · intro h
    cases h <;> simp_all [View.isNull]
  · rintro (hnull | ⟨items, rfl, h⟩)
    · exact .of_isNull hnull (by rw [kind]; rfl)
    · exact .sequence kind h

theorem accepts_map {key : Fin n} (kind : (S t).kind = .map key u) :
    S.Accepts includeInherited t v ↔
      v.isNull ∨ ∃ entries, v = .map entries ∧
        ∀ e ∈ entries, (∃ text, e.1 = .str text) ∧ S.Accepts includeInherited u e.2 := by
  constructor
  · intro h
    cases h with
    | null => exact .inl rfl
    | map kind' keys accepted =>
        obtain ⟨rfl, rfl⟩ := Kind.map.inj (kind.symm.trans kind')
        exact .inr ⟨_, rfl, fun e he => ⟨keys e he, accepted e he⟩⟩
    | _ => simp_all
  · rintro (hnull | ⟨entries, rfl, h⟩)
    · exact .of_isNull hnull (by rw [kind]; rfl)
    · exact .map kind (fun e he => (h e he).1) fun e he => (h e he).2

theorem accepts_composite {owner : String} {members : List (Member n)}
    (kind : (S t).kind = .composite owner members) :
    S.Accepts includeInherited t v ↔
      Member.order members includeInherited = [] ∨ ∃ fields, v = .object owner fields ∧
        ∀ m ∈ Member.order members includeInherited,
          ∃ w, fields[m.slot]? = some w ∧ S.Accepts includeInherited m.shape w := by
  have hnone : Member.order members includeInherited = [] ↔
      ∀ m ∈ members, ¬ m.Included includeInherited := by
    simp [List.eq_nil_iff_forall_not_mem, Member.mem_order]
  constructor
  · intro h
    cases h with
    | memberless kind' none =>
        obtain ⟨rfl, rfl⟩ := Kind.composite.inj (kind.symm.trans kind')
        exact .inl (hnone.mpr none)
    | composite kind' read accepted =>
        obtain ⟨rfl, rfl⟩ := Kind.composite.inj (kind.symm.trans kind')
        refine .inr ⟨_, rfl, fun m hm => ?_⟩
        obtain ⟨hmem, hincluded⟩ := Member.mem_order.mp hm
        obtain ⟨w, hw⟩ := read m hmem hincluded
        exact ⟨w, hw, accepted m hmem hincluded w hw⟩
    | null kind' => simp [kind, Kind.acceptsNull] at kind'
    | _ => simp_all
  · rintro (hempty | ⟨fields, rfl, h⟩)
    · exact .memberless kind (hnone.mp hempty)
    · refine .composite kind (fun m hm hincluded => ?_) fun m hm hincluded w hw => ?_
      · obtain ⟨w, hw, -⟩ := h m (Member.mem_order.mpr ⟨hm, hincluded⟩)
        exact ⟨w, hw⟩
      · obtain ⟨w', hw', haccepts⟩ := h m (Member.mem_order.mpr ⟨hm, hincluded⟩)
        obtain rfl := Option.some.inj (hw.symm.trans hw')
        exact haccepts

/-! ## Unfolding -/

/-- If every member that is visited hands over a view, then it makes no difference whether a shape
or its layout is asked. -/
theorem Unfolds.accepts_iff {L : Layout} (hL : S.Unfolds includeInherited t L)
    (hsupplied : L.Supplied v) : L.accepts v ↔ S.Accepts includeInherited t v := by
  induction hL generalizing v with
  | primitive kind =>
      rw [Layout.accepts_atom, accepts_primitive kind]
      rfl
  | string kind =>
      rw [Layout.accepts_atom, accepts_string kind]
      rfl
  | optional kind _ ih =>
      rw [Layout.accepts_optional, accepts_optional kind]
      cases hnull : v.isNull with
      | true => simp
      | false => simpa using ih (hsupplied.of_visits (.optional hnull .here))
  | sequence kind _ ih =>
      rw [Layout.accepts_sequence, accepts_sequence kind]
      refine or_congr_right (exists_congr fun items => and_congr_right ?_)
      rintro rfl
      exact forall₂_congr fun w hw => ih (hsupplied.of_visits (.item hw .here))
  | map kind _ _ ih =>
      rw [Layout.accepts_map, accepts_map kind]
      refine or_congr_right (exists_congr fun entries => and_congr_right ?_)
      rintro rfl
      exact forall₂_congr fun e he =>
        and_congr_right fun _ => ih (hsupplied.of_visits (.entry he .here))
  | @composite t owner members inner kind places unfolds ih =>
      rw [Layout.accepts_composite, accepts_composite kind]
      have hempty : inner = [] ↔ Member.order members includeInherited = [] := by
        rw [← List.map_eq_nil_iff (f := Prod.fst), places, List.map_eq_nil_iff]
      refine or_congr hempty (exists_congr fun fields => and_congr_right ?_)
      rintro rfl
      constructor
      · intro h m hm
        obtain ⟨p, hp, hzip⟩ := mem_of_mem_zip_shape places hm
        obtain ⟨w, hw⟩ := hsupplied owner inner fields .here p hp
        have haccepts := (ih (m, p) hzip (hsupplied.of_visits (.member hp hw .here))).mp
          (h p hp w hw)
        rw [fst_eq_of_mem_zip places hzip] at hw
        exact ⟨w, hw, haccepts⟩
      · intro h p hp w hw
        obtain ⟨m, hm, hzip⟩ := exists_mem_zip_of_mem places hp
        obtain ⟨w', hw', haccepts⟩ := h m hm
        have hplace := fst_eq_of_mem_zip places hzip
        obtain rfl : w = w' := Option.some.inj (by rw [← hw, ← hw', hplace]; rfl)
        exact (ih (m, p) hzip (hsupplied.of_visits (.member hp hw .here))).mpr haccepts

end Schema
end JsonPlan
