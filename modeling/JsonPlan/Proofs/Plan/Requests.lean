import JsonPlan.Proofs.Plan.Defect
import JsonPlan.Proofs.Plan.Growth

/-!
Requests do not depend on what was requested before them. What a cache keeps is what a first request
for it would get, also if it was compiled on the way to something else that failed.
-/

namespace JsonPlan

namespace Schema

variable {n : Nat} {S : Schema n}

theorem fresh_eq (S : Schema n) (k : PlanKey n) :
    S.fresh k = (S.layout k.includeInherited k.shape).map Layout.program :=
  (plan_eq (PlanCache.sound_empty S) k.shape).1

theorem plan_eq_fresh {c : PlanCache n} (hc : c.Sound S) (k : PlanKey n) :
    (S.plan c k.shape k.includeInherited).1 = S.fresh k := by
  rw [fresh_eq, (plan_eq hc k.shape).1]

theorem fresh_of_get? {c : PlanCache n} (hc : c.Sound S) {k : PlanKey n} {p : Program}
    (h : c.get? k = some p) : S.fresh k = .ok p := by
  obtain ⟨L, hL, rfl⟩ := hc k p h
  rw [fresh_eq, layout_eq_ok_iff.mpr hL]
  rfl

theorem serve_of_sound {c : PlanCache n} (hc : c.Sound S) (ks : List (PlanKey n)) :
    (S.serve c ks).1 = ks.map S.fresh ∧ (S.serve c ks).2.Sound S := by
  induction ks generalizing c with
  | nil => exact ⟨rfl, hc⟩
  | cons k rest ih =>
      have hfirst : (S.plan c k.shape k.includeInherited).2.Sound S := (plan_eq hc k.shape).2
      obtain ⟨hrest, hsound⟩ := ih hfirst
      refine ⟨?_, hsound⟩
      rw [List.map_cons, ← hrest, ← plan_eq_fresh hc k]
      rfl

/-- A request fails over a shape that has no program. -/
theorem exists_faulty_of_fresh {k : PlanKey n} {e : Error} (h : S.fresh k = .error e) :
    ∃ u, S.Reaches k.includeInherited k.shape u ∧ S.Faulty k.includeInherited u e := by
  have hfailure : failure? (S.fresh k) = some e := failure?_eq_some.mpr h
  rw [fresh, failure?_plan, (failure?_layoutFrom [] k.shape).2] at hfailure
  obtain ⟨turns, hdefect, -⟩ := hfailure
  exact exists_faulty_of_defectAt hdefect

/-! ## What is kept -/

theorem get?_plan {c : PlanCache n} (hc : c.Sound S) {k : PlanKey n} {p : Program}
    (h : (S.plan c k.shape k.includeInherited).1 = .ok p) :
    (S.plan c k.shape k.includeInherited).2.get? k = some p := by
  obtain ⟨q, hq⟩ := holds_plan h
  have hfresh := fresh_of_get? (plan_eq hc k.shape).2 hq
  rw [← plan_eq_fresh hc k, h] at hfresh
  rw [hq, Except.ok.inj hfresh]

/-! ## Sequences of requests -/

/-- Whatever was requested before, a request gets what it would get if it came first, and what is
kept is what a first request for it would get. -/
theorem serve_eq_fresh (S : Schema n) (ks : List (PlanKey n)) :
    (S.serve .empty ks).1 = ks.map S.fresh ∧
      ∀ k p, (S.serve .empty ks).2.get? k = some p → S.fresh k = .ok p := by
  obtain ⟨houtcomes, hsound⟩ := serve_of_sound (PlanCache.sound_empty S) ks
  exact ⟨houtcomes, fun k p h => fresh_of_get? hsound h⟩

theorem serve_eq_fresh_tree :
    ∃ p, (tree.serve .empty [⟨treeRoot, false⟩, ⟨1, false⟩]).1 =
        [.error (.recursiveShape "Node"), .ok p] ∧
      tree.fresh ⟨1, false⟩ = .ok p := by
  obtain ⟨houtcomes, hkept⟩ := serve_eq_fresh tree [⟨treeRoot, false⟩, ⟨1, false⟩]
  have hroot : tree.fresh ⟨treeRoot, false⟩ = .error (.recursiveShape "Node") := by
    rw [← failure?_eq_some, fresh, failure?_plan, (failure?_layoutFrom [] treeRoot).2]
    exact firstDefect_tree
  have hcount : tree.fresh ⟨1, false⟩ =
      .ok (Layout.atom (.primitive .int)).program := by
    rw [fresh_eq, layout_eq_ok_iff.mpr (.primitive rfl)]
    rfl
  -- What the failing request leaves behind is sound, so the second one keeps its own program.
  have hsound : (tree.plan .empty treeRoot false).2.Sound tree :=
    (plan_eq (PlanCache.sound_empty tree) treeRoot).2
  have hget := get?_plan hsound (k := ⟨1, false⟩) ((plan_eq_fresh hsound _).trans hcount)
  refine ⟨_, ?_, hkept ⟨1, false⟩ _ hget⟩
  rw [houtcomes, List.map_cons, List.map_cons, List.map_nil, hroot, hcount]

end Schema
end JsonPlan
