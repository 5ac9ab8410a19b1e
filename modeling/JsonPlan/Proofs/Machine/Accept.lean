import JsonPlan.Proofs.Layout.Accept
import JsonPlan.Proofs.Machine.Refinement

/-! Runs fail on the views that their layout does not accept, and only by saying what they found. -/

namespace JsonPlan

variable {style : Style} {v : View}

/-! ## Mismatches -/

namespace Trace

/-- The only failure is that something does not match its shape. -/
def Mismatches (t : Trace) : Prop :=
  ∀ e, t.failure = some e → ∃ expected, e = .shapeMismatch expected

theorem Mismatches.append {a b : Trace} (ha : a.Mismatches) (hb : b.Mismatches) :
    (a ++ b).Mismatches := by
  intro e h
  rw [append_def, andThen] at h
  split at h
  · exact hb e h
  · exact ha e h

theorem mismatches_emit (chunks : List String) : (emit chunks).Mismatches := by
  simp [Mismatches]

theorem mismatches_fail (v : View) (expected : String) :
    (fail (v.mismatch expected)).Mismatches := by
  simp [Mismatches, View.mismatch]

theorem mismatches_commaLed {ts : List Trace} (h : ∀ t ∈ ts, t.Mismatches) :
    (commaLed ts).Mismatches := by
  induction ts with
  | nil => exact mismatches_emit []
  | cons t ts ih =>
      exact (mismatches_emit _).append
        ((h t List.mem_cons_self).append (ih fun u hu => h u (List.mem_cons_of_mem t hu)))

theorem mismatches_array {items : List Trace} (h : ∀ t ∈ items, t.Mismatches) :
    (array items).Mismatches := by
  refine Mismatches.append ((mismatches_emit _).append ?_) (mismatches_emit _)
  cases items with
  | nil => exact mismatches_emit []
  | cons t ts =>
      exact (h t List.mem_cons_self).append
        (mismatches_commaLed fun u hu => h u (List.mem_cons_of_mem t hu))

theorem mismatches_entry {lead : List String} {e : View × Trace} (h : e.2.Mismatches) :
    (entry style lead e).Mismatches := by
  rcases e with ⟨key, value⟩
  cases key with
  | str key => exact (mismatches_emit _).append h
  | _ => exact mismatches_fail _ _

theorem mismatches_object {entries : List (View × Trace)} (h : ∀ e ∈ entries, e.2.Mismatches) :
    (object style entries).Mismatches := by
  have hrest (rest : List (View × Trace)) (hrest : ∀ e ∈ rest, e.2.Mismatches) :
      (commaLedEntries style rest).Mismatches := by
    induction rest with
    | nil => exact mismatches_emit []
    | cons e rest ih =>
        exact (mismatches_entry (hrest e List.mem_cons_self)).append
          (ih fun u hu => hrest u (List.mem_cons_of_mem e hu))
  refine Mismatches.append ((mismatches_emit _).append ?_) (mismatches_emit _)
  cases entries with
  | nil => exact mismatches_emit []
  | cons e rest =>
      exact (mismatches_entry (h e List.mem_cons_self)).append
        (hrest rest fun u hu => h u (List.mem_cons_of_mem e hu))

end Trace

open Trace

theorem Leaf.mismatches_trace (leaf : Leaf) : (leaf.trace style v).Mismatches := by
  rw [Leaf.trace]
  split
  · exact mismatches_emit _
  · exact mismatches_fail _ _

theorem Opening.mismatches_trace {body : View → Trace} (h : ∀ v, (body v).Mismatches)
    (o : Opening) (v : View) : (o.trace style body v).Mismatches := by
  cases o with
  | list =>
      cases v with
      | null => exact mismatches_emit _
      | seq items =>
          refine mismatches_array fun t ht => ?_
          obtain ⟨w, -, rfl⟩ := List.mem_map.mp ht
          exact h w
      | _ => exact mismatches_fail _ _
  | map =>
      cases v with
      | null => exact mismatches_emit _
      | map entries =>
          refine mismatches_object fun e he => ?_
          obtain ⟨e, -, rfl⟩ := List.mem_map.mp he
          exact h e.2
      | _ => exact mismatches_fail _ _
  | member m =>
      cases v with
      | object type fields =>
          rw [Opening.trace]
          split
          · cases fields[m.slot]? with
            | none => exact mismatches_emit []
            | some w => exact h w
          · simp [Mismatches]
      | _ => exact mismatches_fail _ _
  | nullable =>
      rw [Opening.trace]
      split
      · exact mismatches_emit _
      · exact h v

namespace Layout

theorem mismatches_membersTrace {owner : String} {members : List (Place × Layout)}
    (h : ∀ m ∈ members, ∀ v, (trace style false m.2 v).Mismatches) (v : View)
    (pending separator : String) :
    (membersTrace style owner v pending separator members).Mismatches := by
  induction members generalizing pending separator with
  | nil =>
      rw [membersTrace_nil]
      exact mismatches_emit _
  | cons m rest ih =>
      rw [membersTrace_cons]
      exact (mismatches_emit _).append
        ((Opening.mismatches_trace (h m List.mem_cons_self) _ v).append
          (ih (fun u hu => h u (List.mem_cons_of_mem m hu)) _ _))

theorem mismatches_trace (style : Style) (quoted : Bool) (L : Layout) (v : View) :
    (trace style quoted L v).Mismatches := by
  induction L generalizing quoted v with
  | atom a =>
      rw [trace_atom]
      exact Leaf.mismatches_trace _
  | optional inner ih =>
      rw [trace_optional]
      exact Opening.mismatches_trace (ih true) _ v
  | sequence element ih =>
      rw [trace_sequence]
      exact Opening.mismatches_trace (ih true) _ v
  | map value ih =>
      rw [trace_map]
      exact Opening.mismatches_trace (ih true) _ v
  | composite owner members ih =>
      rw [trace_composite]
      exact mismatches_membersTrace (fun m hm => ih m hm false) v _ _

/-! ## Acceptance -/

theorem failure_memberTrace {owner : String} {m : Place × Layout} :
    (memberTrace style owner v m).failure = none ↔
      ∃ fields, v = .object owner fields ∧
        ∀ w, fields[m.1.slot]? = some w → (trace style true m.2 w).failure = none := by
  cases v with
  | object type fields =>
      by_cases htype : type = owner
      · subst htype
        cases hw : fields[m.1.slot]? with
        | none => simp [memberTrace, Opening.trace, Place.ref, hw]
        | some w => simp [memberTrace_object rfl hw, failure_between_quotes, hw]
      · simp [memberTrace, Opening.trace, Place.ref, htype]
  | _ => simp [memberTrace, Opening.trace]

/-- A run succeeds exactly on the views that the layout accepts. -/
theorem failure_trace_iff {L : Layout} : (trace style true L v).failure = none ↔ L.accepts v := by
  induction L generalizing v with
  | atom a => rw [trace_atom, Leaf.failure_trace, accepts_atom]
  | optional inner ih =>
      rw [trace_optional, Opening.trace, accepts_optional]
      cases hnull : v.isNull with
      | true => simp
      | false => simp [ih]
  | sequence element ih =>
      rw [trace_sequence, accepts_sequence]
      cases v with
      | seq items => simp [Opening.trace, Trace.failure_array, View.isNull, ih]
      | _ => simp [Opening.trace, View.isNull]
  | map value ih =>
      rw [trace_map, accepts_map]
      cases v with
      | map entries =>
          simp only [Opening.trace, Trace.failure_object, List.forall_mem_map, ih]
          simp [View.isNull]
      | _ => simp [Opening.trace, View.isNull]
  | composite owner members ih =>
      rw [failure_trace_composite, accepts_composite]
      simp only [failure_memberTrace]
      constructor
      · intro h
        cases members with
        | nil => exact .inl rfl
        | cons first rest =>
            obtain ⟨fields, rfl, -⟩ := h first List.mem_cons_self
            refine .inr ⟨fields, rfl, fun m hm w hw => ?_⟩
            obtain ⟨_, ⟨⟩, hread⟩ := h m hm
            exact (ih m hm).mp (hread w hw)
      · rintro (rfl | ⟨fields, rfl, h⟩) m hm
        · cases hm
        · exact ⟨fields, rfl, fun w hw => (ih m hm).mpr (h m hm w hw)⟩

end Layout
end JsonPlan
