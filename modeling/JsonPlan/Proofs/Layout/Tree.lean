import JsonPlan.Layout.Tree
import JsonPlan.Proofs.Layout.Fit

/-! What is written for a conforming view is its tree. -/

namespace JsonPlan.Layout

variable {v : View}

/-- Nothing between quotes is absent. -/
theorem isNull_of_conforms {L : Layout} (hlike : L.isStringLike = true) (h : L.conforms v) :
    v.isNull = false := by
  cases L with
  | atom a =>
      have hmatches := conforms_atom.mp h
      cases v with
      | null =>
          cases a with
          | string => cases hmatches
          | primitive p => cases p <;> cases hmatches
      | _ => rfl
  | _ => simp [isStringLike] at hlike

theorem written_eq_tree (style : Style) {L : Layout} (h : L.conforms v) :
    L.written style v = L.tree style v := by
  induction L generalizing v with
  | atom a => rw [written, tree]
  | optional inner ih =>
      rw [written, tree]
      cases hnull : v.isNull with
      | true => rfl
      | false =>
          have hinner : inner.conforms v := by simpa [hnull] using conforms_optional.mp h
          exact ih hinner
  | sequence element ih =>
      obtain ⟨items, rfl, hitems⟩ := conforms_sequence.mp h
      rw [written, tree, List.map_congr_left fun w hw => ih (hitems w hw)]
  | map value ih =>
      obtain ⟨entries, rfl, hentries⟩ := conforms_map.mp h
      rw [written, tree, List.map_congr_left fun e he => by rw [ih (hentries e he).2]]
  | composite owner members ih =>
      obtain ⟨fields, rfl, hfields⟩ := conforms_composite.mp h
      rw [written, tree]
      refine congrArg Json.object (List.map_congr_left fun m hm => ?_)
      obtain ⟨w, hw, hconforms⟩ := hfields m hm
      have hpresent : (m.2.isStringLike && w.isNull) = false := by
        cases hlike : m.2.isStringLike with
        | false => rfl
        | true => exact isNull_of_conforms hlike hconforms
      rw [View.slot_object hw, hpresent, if_neg Bool.false_ne_true, ih m hm hconforms]

end JsonPlan.Layout
