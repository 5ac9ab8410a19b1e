import JsonPlan.Proofs.Layout.Visit
import JsonPlan.Proofs.Machine.Refinement
import JsonPlan.Proofs.Output.Scalar

/-! A run that succeeds writes one JSON document, whatever view it met. -/

namespace JsonPlan

open Json

variable {style : Style} {v : View}

namespace Layout

/-! ## Members -/

/-- What a run that succeeds has written reads as one value. -/
def ReadsBack (style : Style) (L : Layout) : Prop :=
  ∀ v, (trace style true L v).failure = none → Supplied L v → FiniteFloats L v →
    Reads (trace style true L v).text (L.written style v)

/-- A member's value between the quotes around its region. -/
theorem ReadsBack.quoted {L : Layout} (h : L.ReadsBack style)
    (hok : (trace style false L v).failure = none) (hsupplied : Supplied L v)
    (hfinite : FiniteFloats L v) :
    Reads (L.quote ++ (trace style false L v).text ++ L.quote)
      (if L.isStringLike && v.isNull then .string "null" else L.written style v) := by
  have hown := failure_between_quotes.mp hok
  rw [text_between_quotes hown]
  split
  · have hplain : Plain "null" := by decide
    exact hplain.reads
  · exact h v hown hsupplied hfinite

/-- The view that a member's region of a composite handed over. -/
theorem exists_of_memberTrace {owner : String} {members : List (Place × Layout)}
    {m : Place × Layout} (hm : m ∈ members)
    (hsupplied : Supplied (.composite owner members) v)
    (hok : (memberTrace style owner v m).failure = none) :
    ∃ fields w, v = .object owner fields ∧ fields[m.1.slot]? = some w := by
  cases v with
  | object type fields =>
      by_cases htype : type = owner
      · subst htype
        obtain ⟨w, hw⟩ := hsupplied _ _ _ .here m hm
        exact ⟨fields, w, rfl, hw⟩
      · simp [memberTrace, Opening.trace, Place.ref, htype] at hok
  | _ => simp [memberTrace, Opening.trace] at hok

theorem ReadsBack.entry {owner : String} {members : List (Place × Layout)}
    {m : Place × Layout} (hm : m ∈ members) (h : m.2.ReadsBack style)
    (hok : (memberTrace style owner v m).failure = none)
    (hsupplied : Supplied (.composite owner members) v)
    (hfinite : FiniteFloats (.composite owner members) v) :
    Reads (m.2.quote ++ (memberTrace style owner v m).text ++ m.2.quote)
      (if m.2.isStringLike && (v.slot m.1.slot).isNull then .string "null"
        else m.2.written style (v.slot m.1.slot)) := by
  obtain ⟨fields, w, rfl, hw⟩ := exists_of_memberTrace hm hsupplied hok
  have hvisits : Visits (.composite owner members) (.object owner fields) m.2 w :=
    .member hm hw .here
  rw [memberTrace_object rfl hw] at hok ⊢
  rw [View.slot_object hw]
  exact h.quoted hok (hsupplied.of_visits hvisits) (hfinite.of_visits hvisits)

/-! ## Runs -/

theorem readsBack_atom (a : Atom) : ReadsBack style (.atom a) := by
  intro v hok _ hfinite
  rw [trace_atom] at hok ⊢
  rw [Leaf.text_trace, written]
  exact reads_leaf (Leaf.failure_trace.mp hok) hfinite.isFinite

theorem ReadsBack.optional {inner : Layout} (h : inner.ReadsBack style) :
    ReadsBack style (.optional inner) := by
  intro v hok hsupplied hfinite
  rw [trace_optional, Opening.trace] at hok ⊢
  rw [written]
  cases hnull : v.isNull with
  | true => exact reads_null
  | false =>
      rw [hnull] at hok
      have hvisits : Visits (.optional inner) v inner v := .optional hnull .here
      exact h v hok (hsupplied.of_visits hvisits) (hfinite.of_visits hvisits)

theorem ReadsBack.sequence {element : Layout} (h : element.ReadsBack style) :
    ReadsBack style (.sequence element) := by
  intro v hok hsupplied hfinite
  rw [trace_sequence] at hok ⊢
  cases v with
  | null =>
      rw [written.eq_def]
      exact reads_null
  | seq items =>
      rw [Opening.trace] at hok ⊢
      have hitems := Trace.failure_array.mp hok
      have hreads : ∀ i ∈ items.map fun w =>
          ((trace style true element w).text, element.written style w), Reads i.1 i.2 := by
        intro i hi
        obtain ⟨w, hw, rfl⟩ := List.mem_map.mp hi
        have hvisits : Visits (.sequence element) (.seq items) element w := .item hw .here
        exact h w (hitems _ (List.mem_map_of_mem hw)) (hsupplied.of_visits hvisits)
          (hfinite.of_visits hvisits)
      have harray := reads_array hreads
      simp only [List.map_map, Function.comp_def] at harray
      rw [Trace.text_array hitems, List.map_map, written]
      exact harray
  | _ => simp [Opening.trace] at hok

theorem ReadsBack.map {value : Layout} (h : value.ReadsBack style) :
    ReadsBack style (.map value) := by
  intro v hok hsupplied hfinite
  rw [trace_map] at hok ⊢
  cases v with
  | null =>
      rw [written.eq_def]
      exact reads_null
  | map entries =>
      rw [Opening.trace] at hok ⊢
      have hentries := Trace.failure_object.mp hok
      have hreads : ∀ e ∈ entries.map fun e => (⟨
          "\"" ++ escaped style.jsonp e.1.keyText ++ "\":", e.1.keyText,
          (trace style true value e.2).text, value.written style e.2⟩ : Entry), e.Reads := by
        intro i hi
        obtain ⟨e, he, rfl⟩ := List.mem_map.mp hi
        have hvisits : Visits (.map value) (.map entries) value e.2 := .entry he .here
        have hvalue := (hentries _ (List.mem_map_of_mem he)).2
        exact ⟨readsKey_escaped style.jsonp e.1.keyText,
          h e.2 hvalue (hsupplied.of_visits hvisits) (hfinite.of_visits hvisits)⟩
      have hobject := reads_object hreads
      simp only [List.map_map, Function.comp_def] at hobject
      rw [Trace.text_object hok, List.map_map, written]
      exact hobject
  | _ => simp [Opening.trace] at hok

theorem readsBack_composite {owner : String} {members : List (Place × Layout)}
    (h : ∀ m ∈ members, m.2.ReadsBack style) : ReadsBack style (.composite owner members) := by
  intro v hok hsupplied hfinite
  have hmembers := failure_trace_composite.mp hok
  have hreads : ∀ e ∈ members.map fun m => (⟨Json.memberName m.1.name, m.1.name,
      m.2.quote ++ (memberTrace style owner v m).text ++ m.2.quote,
      if m.2.isStringLike && (v.slot m.1.slot).isNull then .string "null"
      else m.2.written style (v.slot m.1.slot)⟩ : Entry), e.Reads := by
    intro e he
    obtain ⟨m, hm, rfl⟩ := List.mem_map.mp he
    exact ⟨readsKey_memberName m.1.name,
      (h m hm).entry hm (hmembers m hm) hsupplied hfinite⟩
  have htexts : memberText style owner v = fun m => Json.memberName m.1.name ++
      (m.2.quote ++ (memberTrace style owner v m).text ++ m.2.quote) := by
    funext m
    simp only [memberText, String.append_assoc]
  have hobject := reads_object hreads
  simp only [List.map_map, Function.comp_def] at hobject
  rw [text_trace_composite hmembers, written, htexts]
  exact hobject

theorem readsBack (style : Style) (L : Layout) : L.ReadsBack style := by
  induction L with
  | atom a => exact readsBack_atom a
  | optional inner ih => exact ih.optional
  | sequence element ih => exact ih.sequence
  | map value ih => exact ih.map
  | composite owner members ih => exact readsBack_composite ih

end Layout
end JsonPlan
