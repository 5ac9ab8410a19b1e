import JsonPlan.Proofs.Encoder
import JsonPlan.Proofs.Machine.Accept

/-!
Which views are encoded. An encoder succeeds exactly on the views that the shape of its program
accepts, and all that can go wrong otherwise is that a view does not match its shape.
-/

namespace JsonPlan.Encoder

variable {n : Nat} {e : Encoder n} {v : View} {S : Schema n} {c : PlanCache n} {t : Fin n}
  {includeInherited : Bool}

theorem mismatches_trace (h : (run e.style e.program.steps v).Mismatches) :
    (e.trace v).Mismatches := by
  rw [trace]
  split
  · exact h
  · exact ((Trace.mismatches_emit _).append h).append (Trace.mismatches_emit _)

/-- Where nothing is refused and every member that is visited hands over a view, an encoding goes
well exactly if the shape accepts the view, and is a mismatch otherwise. -/
theorem encode_ok_iff_accepts (hc : c.Reachable S)
    (hp : (S.plan c t includeInherited).1 = .ok e.program) :
    ∃ L, S.layout includeInherited t = .ok L ∧
      ∀ v, L.Supplied v → ∀ {σ : Type} [Sink σ], Sink.Infallible σ →
        ∀ (s : σ) (sizes : CapacityCache),
          ((e.encode v s sizes).1.2 = none ↔ S.Accepts includeInherited t v) ∧
          (¬ S.Accepts includeInherited t v →
            ∃ expected, (e.encode v s sizes).1.2 = some (.shapeMismatch expected)) := by
  obtain ⟨L, hL, hprogram⟩ := hc.plan_eq_ok hp
  refine ⟨L, hL, fun v hsupplied σ _ hσ s sizes => ?_⟩
  have hrun : run e.style e.program.steps v = L.trace e.style true v := by
    rw [hprogram]
    rfl
  have hsuccess : (e.trace v).failure = none ↔ S.Accepts includeInherited t v := by
    rw [failure_trace, hrun, Layout.failure_trace_iff,
      (Schema.layout_eq_ok_iff.mp hL).accepts_iff hsupplied]
  have hmismatches : (e.trace v).Mismatches :=
    mismatches_trace (hrun ▸ L.mismatches_trace e.style true v)
  rw [encode_of_accepts hσ]
  refine ⟨hsuccess, fun hrejected => ?_⟩
  obtain ⟨error, herror⟩ := Option.ne_none_iff_exists'.mp (mt hsuccess.mp hrejected)
  obtain ⟨expected, rfl⟩ := hmismatches error herror
  exact ⟨expected, herror⟩

/-- An absent text is accepted, and a number in its place is not. -/
theorem encode_ok_iff_accepts_labelled :
    ((labelledEncoder "x").encode (.object "Labelled" [.null, .int 7]) "" .empty).1.2 = none ∧
      ∃ expected, ((labelledEncoder "x").encode (.object "Labelled" [.int 7, .null]) ""
        .empty).1.2 = some (.shapeMismatch expected) := by
  obtain ⟨L, hL, hencode⟩ := encode_ok_iff_accepts (e := labelledEncoder "x") .empty
    (Schema.plan_labelled "x" false)
  obtain rfl : L = Schema.labelledLayout "x" := by
    simpa [Schema.layout_labelled] using hL.symm
  have haccepts (label count : View) :
      (Schema.labelled "x").Accepts false Schema.labelledRoot (.object "Labelled" [label, count]) ↔
        (label.isNull ∨ (Leaf.string true).matches label) ∧
          (count.isNull ∨ Leaf.int.matches count) := by
    rw [← (Schema.layout_eq_ok_iff.mp hL).accepts_iff supplied_labelled, Schema.labelledLayout,
      Layout.accepts_composite]
    simp [Layout.accepts_atom, Layout.accepts_optional, Atom.leaf, Primitive.leaf]
  constructor
  · refine (hencode _ supplied_labelled Sink.infallible_string "" .empty).1.mpr ?_
    exact (haccepts _ _).mpr ⟨.inl rfl, .inr rfl⟩
  · refine (hencode _ supplied_labelled Sink.infallible_string "" .empty).2 ?_
    rw [haccepts]
    decide

end JsonPlan.Encoder
