import JsonPlan.Proofs.Engine
import JsonPlan.Proofs.Shape.Cost

/-! First estimates are the sizes that shapes predict. -/

namespace JsonPlan.Engine

variable {n : Nat} {S : Schema n} {costs : CostTable} {r : Root n} {o : Options}

theorem fresh_estimateCapacity {L : Layout} (h : S.layout o.includeInherited r.shape = .ok L) :
    ((estimateCapacity S r o).run.run (.new costs)).1 =
      .ok (Capacity.bucket (min maxSize (L.cost costs))) := by
  have hfresh : S.fresh ⟨r.shape, o.includeInherited⟩ = .ok L.program := by
    rw [Schema.fresh_eq, h]
    rfl
  have hstatic : S.staticEstimate costs ⟨r.shape, o.includeInherited⟩ =
      .ok (min maxSize (L.cost costs)) := by
    rw [Schema.staticEstimate, hfresh]
    exact L.estimate_program costs
  -- A new engine remembers no size, and the shape has a program.
  have houtcome := estimateCapacity_outcome (e := .new costs) (PlanCache.sound_empty S) r o
  generalize (estimateCapacity S r o).run.run (.new costs) = result at houtcome ⊢
  cases houtcome with
  | known hsize => cases hsize
  | failed _ hfailed =>
      rw [hfresh] at hfailed
      cases hfailed
  | compiled _ hraw => rw [← Except.ok.inj (hraw.symm.trans hstatic)]

theorem fresh_estimateCapacity_of_predicts {x : Nat}
    (h : S.Compilable o.includeInherited r.shape)
    (hx : S.Predicts costs o.includeInherited r.shape x) :
    ((estimateCapacity S r o).run.run (.new costs)).1 = .ok (Capacity.bucket (min maxSize x)) := by
  obtain ⟨L, hL⟩ := Schema.exists_layout_iff.mpr h
  have hcost : S.Predicts costs o.includeInherited r.shape (L.cost costs) :=
    Schema.predicts_of_unfolds (Schema.layout_eq_ok_iff.mp hL)
  rw [fresh_estimateCapacity hL, hx.unique hcost]

/-- One size is predicted for a shape that compiles, and the first estimate for it is the bucket of
that size. It stays the same if members are declared in another order. -/
theorem estimateCapacity_predicted (S : Schema n) (costs : CostTable) (r : Root n) (o : Options)
    (h : S.Compilable o.includeInherited r.shape) :
    ∃ x, (∀ y, S.Predicts costs o.includeInherited r.shape y ↔ y = x) ∧
      ((estimateCapacity S r o).run.run (.new costs)).1 =
        .ok (Capacity.bucket (min maxSize x)) ∧
      ∀ S', S.Reorders S' → ((estimateCapacity S' r o).run.run (.new costs)).1 =
        .ok (Capacity.bucket (min maxSize x)) := by
  obtain ⟨L, hL⟩ := Schema.exists_layout_iff.mpr h
  have hx : S.Predicts costs o.includeInherited r.shape (L.cost costs) :=
    Schema.predicts_of_unfolds (Schema.layout_eq_ok_iff.mp hL)
  refine ⟨_, fun y => ⟨fun hy => hy.unique hx, fun hy => hy ▸ hx⟩,
    fresh_estimateCapacity_of_predicts h hx, fun S' hreorders => ?_⟩
  exact fresh_estimateCapacity_of_predicts (hreorders.compilable h) (hreorders.predicts hx)

/-- A label of 6 + 20 bytes and a count of 8 + 3 bytes, a comma and two braces. -/
theorem estimateCapacity_predicted_labelled :
    ((estimateCapacity (Schema.labelled "x") ⟨0, Schema.labelledRoot⟩ .default).run.run
      (.new .default)).1 = .ok 64 := by
  obtain ⟨x, hpredicts, hestimate, -⟩ := estimateCapacity_predicted (Schema.labelled "x") .default
    ⟨0, Schema.labelledRoot⟩ .default
    (Schema.exists_layout_iff.mp ⟨_, Schema.layout_labelled "x" false⟩)
  have heach : ∀ m ∈ [(⟨"x", .field 0, false, 1, 0⟩ : Member 4), ⟨"count", .field 24, false, 2, 1⟩],
      (Schema.labelled "x").Predicts .default false m.shape (if m.shape = 1 then 20 else 3) := by
    intro m hm
    rcases List.mem_cons.mp hm with rfl | hm
    · exact .string rfl
    · obtain rfl := List.mem_singleton.mp hm
      exact .optional (u := 3) rfl (.primitive (p := .int) rfl)
  have hx : (Schema.labelled "x").Predicts .default false Schema.labelledRoot 40 :=
    @Schema.Predicts.composite _ (Schema.labelled "x") .default false Schema.labelledRoot _ _
      (fun t => if t = 1 then 20 else 3) rfl heach
  obtain rfl := (hpredicts 40).mp hx
  exact hestimate

end JsonPlan.Engine
