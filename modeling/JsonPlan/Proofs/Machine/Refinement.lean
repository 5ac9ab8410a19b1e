import JsonPlan.Proofs.Json.Escape
import JsonPlan.Proofs.Layout.Tree
import JsonPlan.Proofs.Machine.Layout
import JsonPlan.Proofs.Machine.Writing
import JsonPlan.Proofs.Output.Sink
import JsonPlan.Proofs.Plan.Compile

/-! A compiled program writes a conforming view as the layout of its type spells it out. -/

namespace JsonPlan

variable {style : Style} {v : View}

/-! ## Scalars -/

namespace Leaf

theorem text_trace (leaf : Leaf) : (leaf.trace style v).text = leaf.text style v := by
  rw [trace, Leaf.text]
  cases leaf.chunks? style v <;> rfl

/-- A leaf writes what it is made for, and whatever is absent. -/
theorem failure_trace {leaf : Leaf} :
    (leaf.trace style v).failure = none ↔ v.isNull ∨ leaf.matches v := by
  rcases leaf with (_ | _) | (_ | _) | _ | _ | (_ | _) | _ | _ | _ <;> cases v <;>
    simp [trace, chunks?, View.isNull, Leaf.matches]

end Leaf

/-- Who writes an atom's quotes says nothing about the views it takes. -/
theorem Atom.matches_leaf (a : Atom) (quoted : Bool) :
    (a.leaf quoted).matches v = (a.leaf true).matches v := by
  cases a with
  | string => cases v <;> rfl
  | primitive p => cases p <;> cases v <;> rfl

namespace Layout

/-- The text of an atom, with its quotes taken out of its leaf. -/
theorem text_atom (style : Style) {a : Atom} (h : (a.leaf true).matches v) :
    text style (.atom a) v =
      quote (.atom a) ++ (a.leaf false).text style v ++ quote (.atom a) := by
  have hempty (s : String) : s = "" ++ s ++ "" := by simp
  rw [text]
  cases a with
  | string =>
      cases v with
      | str s => exact Json.join_quotedChunks s
      | _ => simp [Atom.leaf, Leaf.matches] at h
  | primitive p =>
      cases p with
      | char =>
          cases v with
          | char c => exact Json.join_quotedChunks c.toString
          | _ => simp [Atom.leaf, Primitive.leaf, Leaf.matches] at h
      | guid =>
          cases v with
          | guid g =>
              change String.join ["\"", g.text, "\""] = "\"" ++ String.join [g.text] ++ "\""
              simp [String.append_assoc]
          | _ => simp [Atom.leaf, Primitive.leaf, Leaf.matches] at h
      | _ => exact hempty _

/-! ## Layouts -/

theorem trace_eq_of_not_isStringLike {L : Layout} (h : L.isStringLike = false) (quoted : Bool) :
    trace style quoted L v = trace style true L v := by
  rw [trace, trace, actions_eq_of_not_isStringLike h]

theorem failure_between_quotes {L : Layout} :
    (trace style false L v).failure = none ↔ (trace style true L v).failure = none := by
  cases hlike : L.isStringLike with
  | false => rw [trace_eq_of_not_isStringLike hlike]
  | true =>
      cases L with
      | atom a =>
          rw [trace_atom, trace_atom, Leaf.failure_trace, Leaf.failure_trace, Atom.matches_leaf]
      | _ => simp [isStringLike] at hlike

/-- Between its quotes a layout that leaves them out writes the same as on its own, unless there is
nothing to quote. -/
theorem text_between_quotes {L : Layout} (h : (trace style true L v).failure = none) :
    L.quote ++ (trace style false L v).text ++ L.quote =
      if L.isStringLike && v.isNull then "\"null\"" else (trace style true L v).text := by
  cases hlike : L.isStringLike with
  | false =>
      rw [trace_eq_of_not_isStringLike hlike, quote, hlike]
      simp
  | true =>
      cases L with
      | atom a =>
          rw [trace_atom, Leaf.failure_trace] at h
          rw [trace_atom, trace_atom, Leaf.text_trace, Leaf.text_trace]
          cases hnull : v.isNull with
          | true =>
              rw [View.eq_null_of_isNull hnull, Leaf.text_null, quote, hlike]
              rfl
          | false =>
              have hmatches : (a.leaf true).matches v = true := by simpa [hnull] using h
              have htext := text_atom style hmatches
              rw [text] at htext
              simp [htext]
      | _ => simp [isStringLike] at hlike

theorem refines_between_quotes {L : Layout} (h : L.conforms v)
    (hL : (trace style true L v).failure = none ∧
      (trace style true L v).text = L.text style v) :
    (trace style false L v).failure = none ∧
      L.quote ++ (trace style false L v).text ++ L.quote = L.text style v := by
  refine ⟨failure_between_quotes.mpr hL.1, ?_⟩
  rw [text_between_quotes hL.1, hL.2]
  cases hlike : L.isStringLike with
  | false => rfl
  | true => simp [isNull_of_conforms hlike h]

theorem refines_of_conforms (style : Style) {L : Layout} (h : L.conforms v) :
    (trace style true L v).failure = none ∧ (trace style true L v).text = L.text style v := by
  induction L generalizing v with
  | atom a =>
      rw [trace_atom, Leaf.text_trace, text]
      exact ⟨Leaf.failure_trace.mpr (.inr (conforms_atom.mp h)), rfl⟩
  | optional inner ih =>
      rw [trace_optional, text, Opening.trace]
      cases hnull : v.isNull with
      | true => exact ⟨rfl, rfl⟩
      | false =>
          have hinner : inner.conforms v := by simpa [hnull] using conforms_optional.mp h
          exact ih hinner
  | sequence element ih =>
      obtain ⟨items, rfl, hitems⟩ := conforms_sequence.mp h
      have hok : ∀ t ∈ items.map (trace style true element), t.failure = none := by
        intro t ht
        obtain ⟨w, hw, rfl⟩ := List.mem_map.mp ht
        exact (ih (hitems w hw)).1
      have htexts : (items.map (trace style true element)).map Trace.text =
          items.map fun w => element.text style w := by
        rw [List.map_map]
        exact List.map_congr_left fun w hw => (ih (hitems w hw)).2
      rw [trace_sequence, text, Opening.trace]
      exact ⟨Trace.failure_array.mpr hok, by rw [Trace.text_array hok, htexts]⟩
  | map value ih =>
      obtain ⟨entries, rfl, hentries⟩ := conforms_map.mp h
      have hok : (Trace.object style (entries.map fun e =>
          (e.1, trace style true value e.2))).failure = none := by
        rw [Trace.failure_object]
        intro e' he'
        obtain ⟨e, he, rfl⟩ := List.mem_map.mp he'
        exact ⟨(hentries e he).1, (ih (hentries e he).2).1⟩
      rw [trace_map, text, Opening.trace]
      refine ⟨hok, ?_⟩
      rw [Trace.text_object hok, List.map_map]
      refine congrArg (enclosed "\x7b" "\x7d") (List.map_congr_left fun e he => ?_)
      simp only [Function.comp_apply, (ih (hentries e he).2).2]
  | composite owner members ih =>
      obtain ⟨fields, rfl, hfields⟩ := conforms_composite.mp h
      have hmember : ∀ m ∈ members,
          (memberTrace style owner (.object owner fields) m).failure = none ∧
            memberText style owner (.object owner fields) m =
              Json.memberName m.1.name ++ m.2.text style ((View.object owner fields).slot m.1.slot) := by
        intro m hm
        obtain ⟨w, hw, hconforms⟩ := hfields m hm
        have hw' := refines_between_quotes hconforms (ih m hm hconforms)
        rw [memberText, memberTrace_object rfl hw, View.slot_object hw, ← hw'.2]
        exact ⟨hw'.1, by simp only [String.append_assoc]⟩
      rw [failure_trace_composite, text, text_trace_composite fun m hm => (hmember m hm).1]
      exact ⟨fun m hm => (hmember m hm).1, congrArg (enclosed "\x7b" "\x7d")
        (List.map_congr_left fun m hm => (hmember m hm).2)⟩

end Layout

/-! ## Plans -/

namespace Schema

variable {n : Nat} {S : Schema n}

/-- Run on a conforming view, a compiled program succeeds on every sink that refuses nothing, and
its chunks are the text of the layout. -/
theorem plan_refines_layout {c : PlanCache n} (hc : c.Reachable S) {t : Fin n}
    {includeInherited : Bool} {p : Program} (hp : (S.plan c t includeInherited).1 = .ok p) :
    ∃ L, S.layout includeInherited t = .ok L ∧ ∀ style v, L.conforms v →
      ∃ chunks, String.join chunks = L.text style v ∧
        ∀ {σ : Type} [Sink σ], Sink.Infallible σ → ∀ s : σ,
          (runInto style p.steps v).into s = (Sink.after s chunks, none) := by
  obtain ⟨L, hL, rfl⟩ := hc.plan_eq_ok hp
  refine ⟨L, hL, fun style v hv => ?_⟩
  obtain ⟨hok, htext⟩ := Layout.refines_of_conforms style hv
  refine ⟨(Layout.trace style true L v).chunks, htext, fun {σ} _ hσ s => ?_⟩
  rw [runInto_eq, ← hok]
  exact Trace.into_of_infallible hσ s _

theorem plan_refines_layout_labelled :
    ∃ p, ((labelled "x").plan .empty labelledRoot false).1 = .ok p ∧
      (runInto ⟨.iso8601, false⟩ p.steps (.object "Labelled" [.str "y", .null])).into "" =
        ("\x7b\"x\":\"y\",\"count\":null\x7d", none) := by
  refine ⟨_, plan_labelled "x" false, ?_⟩
  obtain ⟨L, hL, hrun⟩ := plan_refines_layout .empty (plan_labelled "x" false)
  obtain rfl : L = labelledLayout "x" := by simpa [layout_labelled] using hL.symm
  have hconforms : (labelledLayout "x").conforms (.object "Labelled" [.str "y", .null]) := by
    rw [labelledLayout, Layout.conforms_composite]
    simp [Layout.conforms_atom, Layout.conforms_optional, Atom.leaf, Leaf.matches, View.isNull]
  have htext : (labelledLayout "x").text ⟨.iso8601, false⟩
      (.object "Labelled" [.str "y", .null]) = "\x7b\"x\":\"y\",\"count\":null\x7d" := by
    simp [labelledLayout, Layout.text]
    decide
  obtain ⟨chunks, hchunks, hinto⟩ := hrun ⟨.iso8601, false⟩ _ hconforms
  rw [hinto Sink.infallible_string, Sink.after_string, hchunks, htext]
  rfl

end Schema
end JsonPlan
