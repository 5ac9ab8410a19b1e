import JsonPlan.Layout.Fit
import JsonPlan.Layout.Visit

/-! What conforming to a layout means, one constructor at a time. -/

namespace JsonPlan.Layout

variable {v : View}

theorem conforms_atom {a : Atom} : conforms (.atom a) v ↔ (a.leaf true).matches v := by
  rw [conforms]

theorem conforms_optional {inner : Layout} :
    conforms (.optional inner) v ↔ v.isNull ∨ conforms inner v := by
  rw [conforms, Bool.or_eq_true]

theorem conforms_sequence {element : Layout} :
    conforms (.sequence element) v ↔
      ∃ items, v = .seq items ∧ ∀ w ∈ items, conforms element w := by
  rw [conforms.eq_def]
  cases v <;> simp

theorem conforms_map {value : Layout} :
    conforms (.map value) v ↔
      ∃ entries, v = .map entries ∧
        ∀ e ∈ entries, (∃ text, e.1 = .str text) ∧ conforms value e.2 := by
  rw [conforms.eq_def]
  cases v with
  | map entries =>
      simp only [List.all_eq_true, Bool.and_eq_true, View.map.injEq, exists_eq_left']
      refine forall₂_congr fun e _ => and_congr_left' ?_
      cases e.1 <;> simp
  | _ => simp

theorem conforms_composite {owner : String} {members : List (Place × Layout)} :
    conforms (.composite owner members) v ↔
      ∃ fields, v = .object owner fields ∧
        ∀ m ∈ members, ∃ w, fields[m.1.slot]? = some w ∧ conforms m.2 w := by
  rw [conforms.eq_def]
  cases v with
  | object type fields =>
      simp only [List.all_eq_true, List.mem_map, forall_exists_index, and_imp,
        forall_apply_eq_imp_iff₂, id, Bool.and_eq_true, decide_eq_true_eq, View.object.injEq]
      constructor
      · rintro ⟨rfl, h⟩
        refine ⟨fields, ⟨rfl, rfl⟩, fun m hm => ?_⟩
        have hconforms := h m hm
        split at hconforms
        · rename_i w hread
          exact ⟨w, hread, hconforms⟩
        · cases hconforms
      · rintro ⟨_, ⟨rfl, rfl⟩, h⟩
        refine ⟨rfl, fun m hm => ?_⟩
        obtain ⟨w, hread, hconforms⟩ := h m hm
        simpa only [hread] using hconforms
  | _ => simp

/-! ## Visits -/

/-- Every place of a conforming view conforms to its own layout. -/
theorem conforms_of_visits {L K : Layout} {w : View} (hvisits : Visits L v K w)
    (h : L.conforms v) : K.conforms w := by
  induction hvisits with
  | here => exact h
  | optional present _ ih =>
      apply ih
      simpa [present] using conforms_optional.mp h
  | item mem _ ih =>
      obtain ⟨_, ⟨⟩, hitems⟩ := conforms_sequence.mp h
      exact ih (hitems _ mem)
  | entry mem _ ih =>
      obtain ⟨_, ⟨⟩, hentries⟩ := conforms_map.mp h
      exact ih (hentries _ mem).2
  | member mem read _ ih =>
      obtain ⟨_, ⟨⟩, hfields⟩ := conforms_composite.mp h
      obtain ⟨w, hw, hconforms⟩ := hfields _ mem
      obtain rfl := Option.some.inj (read.symm.trans hw)
      exact ih hconforms

theorem supplied_of_conforms {L : Layout} (h : L.conforms v) : L.Supplied v := by
  intro owner members fields hvisits m hm
  obtain ⟨_, ⟨⟩, hfields⟩ := conforms_composite.mp (conforms_of_visits hvisits h)
  obtain ⟨w, hw, _⟩ := hfields m hm
  exact ⟨w, hw⟩

end JsonPlan.Layout
