import JsonPlan.Proofs.Program.Cost
import JsonPlan.Proofs.Session

/-!
No shape leads to a malformed program. Compilation fails only over a defect of the graph, and what it
yields nests, so that every estimate of it succeeds.
-/

namespace JsonPlan

variable {n : Nat} {S : Schema n}

/-! ## Failures of compilation -/

namespace Schema

theorem fresh_ne_malformed (S : Schema n) (k : PlanKey n) (fault : Fault) :
    S.fresh k ≠ .error (.malformedProgram fault) := by
  intro h
  obtain ⟨u, -, hu⟩ := exists_faulty_of_fresh h
  cases hu

theorem unencodable_of_fresh {k : PlanKey n} {name : String}
    (h : S.fresh k = .error (.unsupportedShape name)) :
    ∃ u, S.Reaches k.includeInherited k.shape u ∧ (S u).kind = .unencodable ∧
      (S u).name = name := by
  obtain ⟨u, hreaches, hu⟩ := exists_faulty_of_fresh h
  cases hu with
  | unencodable hkind => exact ⟨u, hreaches, hkind, rfl⟩

theorem nested_of_fresh {k : PlanKey n} {p : Program} (h : S.fresh k = .ok p) :
    Nested p.actions := by
  obtain ⟨L, -, rfl⟩ := exists_layout_of_fresh h
  rw [Layout.actions_program]
  exact L.nested_actions true

end Schema

theorem Shape.exists_unquotedLeaf {u : Shape n} (h : u.kind.isStringLike) :
    ∃ leaf, u.unquotedLeaf = .ok leaf := by
  rw [unquotedLeaf]
  cases hkind : u.kind <;> simp_all [Kind.isStringLike]

theorem Options.checkEncodable_ne_malformed (o : Options) (fault : Fault) :
    o.checkEncodable ≠ .error (.malformedProgram fault) :=
  fun h => nomatch refused_of_checkEncodable h

/-! ## Engines -/

namespace Engine

variable {e : Engine n}

theorem program_ne_malformed (he : e.plans.Sound S) (r : Root n) (o : Options) (fault : Fault) :
    ((program S r o).run.run e).1 ≠ .error (.malformedProgram fault) := by
  rw [run_program he]
  exact S.fresh_ne_malformed _ fault

theorem encoder_ne_malformed (he : e.plans.Sound S) (r : Root n) (o : Options) (fault : Fault) :
    ((encoder S r o).run.run e).1 ≠ .error (.malformedProgram fault) := by
  have houtcome := encoder_outcome he r o
  intro h
  generalize (encoder S r o).run.run e = result at houtcome h
  cases houtcome with
  | refused ho =>
      obtain rfl := Except.error.inj h
      exact o.checkEncodable_ne_malformed fault ho
  | failed _ hfresh =>
      obtain rfl := Except.error.inj h
      exact S.fresh_ne_malformed _ fault hfresh
  | compiled => cases h

theorem estimateCapacity_ne_malformed (he : e.plans.Sound S) (r : Root n) (o : Options)
    (fault : Fault) :
    ((estimateCapacity S r o).run.run e).1 ≠ .error (.malformedProgram fault) := by
  have houtcome := estimateCapacity_outcome he r o
  intro h
  generalize (estimateCapacity S r o).run.run e = result at houtcome h
  cases houtcome with
  | known => cases h
  | failed _ hfresh =>
      obtain rfl := Except.error.inj h
      exact S.fresh_ne_malformed _ fault hfresh
  | compiled => cases h

end Engine

/-! ## What requests can rely on -/

/-- A plan cache compiles `S` without a malformed program on the way. -/
structure PlanCache.Compiles (S : Schema n) (c : PlanCache n) : Prop where
  wellFormed (k : PlanKey n) (fault : Fault) :
    (S.plan c k.shape k.includeInherited).1 ≠ .error (.malformedProgram fault)
  nested {k : PlanKey n} {p : Program} :
    (S.plan c k.shape k.includeInherited).1 = .ok p → Nested p.actions
  estimated {k : PlanKey n} {p : Program} :
    (S.plan c k.shape k.includeInherited).1 = .ok p →
      ∀ costs : CostTable, ∃ size, costs.estimate p.actions = .ok size
  /-- What was compiled on the way to something that failed also nests. -/
  kept {k : PlanKey n} {p : Program} : c.get? k = some p → Nested p.actions
  unsupported {k : PlanKey n} {name : String} :
    (S.plan c k.shape k.includeInherited).1 = .error (.unsupportedShape name) →
      ∃ u, S.Reaches k.includeInherited k.shape u ∧ (S u).kind = .unencodable ∧ (S u).name = name

theorem PlanCache.Sound.compiles {c : PlanCache n} (hc : c.Sound S) : c.Compiles S where
  wellFormed k fault := by
    rw [Schema.plan_eq_fresh hc]
    exact S.fresh_ne_malformed k fault
  nested h := Schema.nested_of_fresh (Schema.plan_eq_fresh hc _ ▸ h)
  estimated h costs :=
    costs.exists_estimate (Schema.nested_of_fresh (Schema.plan_eq_fresh hc _ ▸ h))
  kept h := Schema.nested_of_fresh (Schema.fresh_of_get? hc h)
  unsupported h := Schema.unencodable_of_fresh (Schema.plan_eq_fresh hc _ ▸ h)

/-- Whatever was requested before, from a cache alone or from an engine, no request fails over a
malformed program. Every program that is compiled nests and has an estimate. A shape is unsupported
only because its kind has no encoding, and string-like shapes always have a leaf. -/
theorem never_malformed (S : Schema n) :
    (∀ c : PlanCache n, c.Reachable S → c.Compiles S) ∧
    (∀ (costs : CostTable) (requests : List (Request n)),
      let e := ((Session.new costs).run S requests).engine
      e.plans.Compiles S ∧
        ∀ (r : Root n) (o : Options) (fault : Fault),
          ((Engine.program S r o).run.run e).1 ≠ .error (.malformedProgram fault) ∧
          ((Engine.encoder S r o).run.run e).1 ≠ .error (.malformedProgram fault) ∧
          ((Engine.estimateCapacity S r o).run.run e).1 ≠ .error (.malformedProgram fault)) ∧
    ∀ u, (S u).kind.isStringLike → ∃ leaf, (S u).unquotedLeaf = .ok leaf := by
  refine ⟨fun c hc => hc.sound.compiles, fun costs requests => ?_,
    fun u hu => Shape.exists_unquotedLeaf hu⟩
  have hplans := ((Session.sound_new S costs).run requests).plans
  exact ⟨hplans.compiles, fun r o fault => ⟨Engine.program_ne_malformed hplans r o fault,
    Engine.encoder_ne_malformed hplans r o fault,
    Engine.estimateCapacity_ne_malformed hplans r o fault⟩⟩

/-- The request for the composite fails, since it contains itself; the next one, for its count, does
not. -/
theorem never_malformed_tree :
    ∃ p size, (Schema.tree.plan (Schema.tree.plan .empty Schema.treeRoot false).2 1 false).1 = .ok p ∧
      Nested p.actions ∧ CostTable.default.estimate p.actions = .ok size := by
  obtain ⟨hreachable, -, -⟩ := never_malformed Schema.tree
  have hafter := PlanCache.Reachable.request (S := Schema.tree) Schema.treeRoot false .empty
  have hcompiles := hreachable _ hafter
  have hcount : Schema.tree.fresh ⟨1, false⟩ = .ok (Layout.atom (.primitive .int)).program := by
    rw [Schema.fresh_eq, Schema.layout_eq_ok_iff.mpr (.primitive rfl)]
    rfl
  have hp := (Schema.plan_eq_fresh hafter.sound ⟨1, false⟩).trans hcount
  obtain ⟨size, hsize⟩ := hcompiles.estimated hp .default
  exact ⟨_, size, hp, hcompiles.nested hp, hsize⟩

end JsonPlan
