import JsonPlan.Proofs.Plan.Requests

/-!
What a cache holds after any sequence of requests: entries that last, one for each key, closed under
the shapes that programs are built from, and none for a shape that has no program.
-/

namespace JsonPlan

variable {n : Nat} {S : Schema n}

namespace PlanCache

variable {c : PlanCache n} {k : PlanKey n}

theorem closed_empty (S : Schema n) : (empty : PlanCache n).Closed S := by
  rintro k ⟨p, hp⟩
  simp [empty, get?] at hp

theorem Sound.compilable (hc : c.Sound S) (h : c.Holds k) :
    S.Compilable k.includeInherited k.shape := by
  obtain ⟨p, hp⟩ := h
  obtain ⟨L, hL, -⟩ := hc k p hp
  exact Schema.exists_layout_iff.mp ⟨L, Schema.layout_eq_ok_iff.mpr hL⟩

theorem Sound.exists_kept?_plan (hc : c.Sound S) {p : Program}
    (h : (S.plan c k.shape k.includeInherited).1 = .ok p) :
    ∃ i, (S.plan c k.shape k.includeInherited).2.kept? k = some (i, p) :=
  exists_kept?_of_get? (Schema.get?_plan hc h)

/-- A request that fails leaves nothing from which its defect can be reached. -/
theorem Sound.exists_faulty (hc : c.Sound S) {e : Error}
    (h : (S.plan c k.shape k.includeInherited).1 = .error e) :
    ∃ d, S.Reaches k.includeInherited k.shape d ∧ S.Faulty k.includeInherited d e ∧
      ∀ u, S.Reaches k.includeInherited u d →
        ¬ (S.plan c k.shape k.includeInherited).2.Holds ⟨u, k.includeInherited⟩ := by
  rw [Schema.plan_eq_fresh hc k] at h
  obtain ⟨d, hreaches, hfaulty⟩ := Schema.exists_faulty_of_fresh h
  refine ⟨d, hreaches, hfaulty, fun u hu hheld => ?_⟩
  have hafter : (S.plan c k.shape k.includeInherited).2.Sound S := (Schema.plan_eq hc k.shape).2
  exact (hafter.compilable hheld).not_faulty hu e hfaulty

theorem Sound.keeps (hc : c.Sound S) (hclosed : c.Closed S) : c.Keeps S where
  lasting := Schema.kept?_serve
  apart := key_eq_of_kept?
  served := hc.exists_kept?_plan
  shared h ks := by
    -- The entry lasts, and compilation looks for one before anything else.
    obtain ⟨i, hentry⟩ := hc.exists_kept?_plan h
    exact Schema.run_compile_kept (get?_of_kept? (Schema.kept?_serve hentry ks))
  closed := hclosed
  added := (Schema.plan_grows c _).added
  compiled := Schema.fresh_of_get? hc
  failed := hc.exists_faulty

end PlanCache

namespace Schema

/-- After any requests, some of which may have failed, every entry lasts under its own key, and holds
what a first request for the key would get; with a shape the cache holds what its program is built
from, and nothing that leads to a shape without a program. -/
theorem serve_keeps (S : Schema n) (ks : List (PlanKey n)) : (S.serve .empty ks).2.Keeps S :=
  (serve_of_sound (PlanCache.sound_empty S) ks).2.keeps
    (closed_serve (PlanCache.closed_empty S) ks)

/-- The request for the composite compiles its count before it comes back to the composite. -/
theorem plan_tree : tree.plan .empty treeRoot false =
    (.error (.recursiveShape "Node"), ⟨[(⟨1, false⟩, ⟨[⟨.write .int, 0⟩]⟩)]⟩) := by
  have hdepth : offPath ([] : List (Fin 3)) < 4 := by rw [offPath_nil]; omega
  rw [plan, ← compileWithin_eq (throw (.custom "")) hdepth]
  rfl

theorem eq_of_faulty_tree {d : Fin 3} (h : tree.Faulty false d (.recursiveShape "Node")) :
    d = treeRoot := by
  generalize he : Error.recursiveShape "Node" = e at h
  cases h with
  | recursive =>
      have hname := Error.recursiveShape.inj he
      match d with
      | 0 => rfl
      | 1 | 2 => exact absurd hname (by decide)
  | unencodable => cases he
  | nonTextKeys => cases he

/-- The composites inside a composite keep it from having a program; its count, which was compiled
before that was found out, stays in the cache for good. -/
theorem serve_keeps_tree :
    let c := (tree.serve .empty [⟨treeRoot, false⟩]).2
    (∃ p, (∀ ks, (tree.serve c ks).2.kept? ⟨1, false⟩ = some (0, p)) ∧
        (tree.plan c 1 false).1 = .ok p) ∧
      ¬ c.Holds ⟨treeRoot, false⟩ ∧ ¬ c.Holds ⟨2, false⟩ := by
  have hafter : (tree.serve .empty [⟨treeRoot, false⟩]).2 = (tree.plan .empty treeRoot false).2 := rfl
  refine ⟨⟨⟨[⟨.write .int, 0⟩]⟩, ?_, ?_⟩, ?_⟩
  · apply (serve_keeps tree [⟨treeRoot, false⟩]).lasting
    rw [hafter, plan_tree]
    rfl
  · rw [hafter, plan_tree, plan, run_compile_kept rfl]
  · obtain ⟨d, -, hfaulty, hnone⟩ := (serve_keeps tree []).failed (k := ⟨treeRoot, false⟩)
      (e := .recursiveShape "Node") (congrArg Prod.fst plan_tree)
    obtain rfl : d = treeRoot := eq_of_faulty_tree hfaulty
    exact ⟨hnone treeRoot .here, hnone 2 (.part .here List.mem_cons_self)⟩

end Schema
end JsonPlan
