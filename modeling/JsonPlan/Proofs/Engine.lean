import JsonPlan.Engine.History
import JsonPlan.Proofs.Capacity
import JsonPlan.Proofs.Layout.Cost
import JsonPlan.Proofs.Plan.Requests

/-!
What each request to an engine gets and leaves behind. The programs are those of first requests,
whatever the engine has kept.
-/

namespace JsonPlan

variable {n : Nat} {S : Schema n}

/-! ## Estimates -/

theorem Schema.exists_layout_of_fresh {k : PlanKey n} {p : Program} (h : S.fresh k = .ok p) :
    ∃ L, S.layout k.includeInherited k.shape = .ok L ∧ p = L.program :=
  PlanCache.Reachable.plan_eq_ok .empty h

/-- A compiled program has an estimate. -/
theorem Schema.exists_staticEstimate {k : PlanKey n} {p : Program} (h : S.fresh k = .ok p)
    (costs : CostTable) :
    ∃ raw, costs.estimate p.actions = .ok raw ∧ S.staticEstimate costs k = .ok raw := by
  obtain ⟨L, -, rfl⟩ := exists_layout_of_fresh h
  have hraw := L.estimate_program costs
  exact ⟨_, hraw, by rw [staticEstimate, h]; exact hraw⟩

namespace Engine

variable {e : Engine n} {r : Root n} {o : Options} {p : Program} {raw : Nat} {error : Error}

/-! ## Programs -/

/-- The engine after a request for a program. -/
def planned (S : Schema n) (e : Engine n) (r : Root n) (o : Options) : Engine n :=
  { e with plans := (S.plan e.plans r.shape o.includeInherited).2 }

theorem run_program (he : e.plans.Sound S) :
    (program S r o).run.run e = (S.fresh ⟨r.shape, o.includeInherited⟩, planned S e r o) := by
  rw [← Schema.plan_eq_fresh he]
  rfl

theorem run_program_bind {α : Type} (he : e.plans.Sound S) (f : Program → EngineM n α) :
    (program S r o >>= f).run.run e =
      match S.fresh ⟨r.shape, o.includeInherited⟩ with
      | .ok p => (f p).run.run (planned S e r o)
      | .error error => (.error error, planned S e r o) := by
  rw [run_bind, run_program he]
  cases S.fresh ⟨r.shape, o.includeInherited⟩ <;> rfl

theorem planned_sound (he : e.plans.Sound S) : (planned S e r o).plans.Sound S :=
  (Schema.plan_eq he r.shape).2

/-! ## Sizes -/

/-- What an estimate writes for a key: nothing if the key has a size. -/
def estimated (c : CapacityCache) (k : CapacityKey) (raw : Nat) : Option (CapacityKey × Nat) :=
  match c.get? k with
  | some _ => none
  | none => some (k, raw)

/-- The engine after an estimate for a key. -/
def seed (e : Engine n) (k : CapacityKey) (raw : Nat) : Engine n :=
  { e with capacities := e.capacities.setAll (estimated e.capacities k raw).toList }

theorem seed_of_some {k : CapacityKey} {size : Nat} (h : e.capacities.get? k = some size)
    (raw : Nat) : seed e k raw = e := by
  simp only [seed, estimated, h, Option.toList_none, CapacityCache.setAll_nil]

theorem seed_of_none {k : CapacityKey} (h : e.capacities.get? k = none) (raw : Nat) :
    seed e k raw = { e with capacities := e.capacities.set k raw } := by
  simp only [seed, estimated, h]
  rfl

theorem run_capacityOrEstimate (k : CapacityKey) (h : e.costs.estimate p.actions = .ok raw) :
    (capacityOrEstimate k p).run.run e =
      (.ok ((e.capacities.get? k).getD (Capacity.bucket raw)), seed e k raw) := by
  rw [capacityOrEstimate, run_get_bind]
  cases hk : e.capacities.get? k with
  | some size =>
      rw [seed_of_some hk]
      rfl
  | none =>
      rw [seed_of_none hk]
      simp only [h]
      rfl

theorem exists_get?_seed (e : Engine n) (k : CapacityKey) (raw : Nat) :
    ∃ size, (seed e k raw).capacities.get? k = some size := by
  cases hk : e.capacities.get? k with
  | some size => exact ⟨size, by rw [seed_of_some hk, hk]⟩
  | none => exact ⟨_, by rw [seed_of_none hk, CapacityCache.get?_set_self]⟩

/-! ## Encoders -/

/-- What a request for an encoder comes to. -/
inductive EncoderOutcome (S : Schema n) (e : Engine n) (r : Root n) (o : Options) :
    Except Error (Encoder n) × Engine n → Prop where
  | refused {error : Error} (ho : o.checkEncodable = .error error) :
      EncoderOutcome S e r o (.error error, e)
  | failed {error : Error} (ho : o.checkEncodable = .ok ())
      (h : S.fresh ⟨r.shape, o.includeInherited⟩ = .error error) :
      EncoderOutcome S e r o (.error error, planned S e r o)
  | compiled {p : Program} {raw : Nat} (ho : o.checkEncodable = .ok ())
      (hp : S.fresh ⟨r.shape, o.includeInherited⟩ = .ok p)
      (hraw : S.staticEstimate e.costs ⟨r.shape, o.includeInherited⟩ = .ok raw) :
      EncoderOutcome S e r o
        (.ok ⟨p, o, capacityKey r o, ⟨r.shape, o.includeInherited⟩⟩,
          seed (planned S e r o) (capacityKey r o) raw)

theorem run_encoder_of_refused (h : o.checkEncodable = .error error) :
    (encoder S r o).run.run e = (.error error, e) := by
  rw [encoder, h]
  rfl

theorem encoder_outcome (he : e.plans.Sound S) (r : Root n) (o : Options) :
    EncoderOutcome S e r o ((encoder S r o).run.run e) := by
  cases ho : o.checkEncodable with
  | error error =>
      rw [run_encoder_of_refused ho]
      exact .refused ho
  | ok _ =>
      -- Past the options, this is a request for a program with more to do after it.
      have hrun : (encoder S r o).run.run e =
          (program S r o >>= fun p => do
            let _ ← capacityOrEstimate (capacityKey r o) p
            return ⟨p, o, capacityKey r o, ⟨r.shape, o.includeInherited⟩⟩).run.run e := by
        rw [encoder, ho]
        rfl
      rw [hrun, run_program_bind he]
      cases hfresh : S.fresh ⟨r.shape, o.includeInherited⟩ with
      | error error => exact .failed ho hfresh
      | ok p =>
          obtain ⟨raw, hraw, hstatic⟩ := Schema.exists_staticEstimate hfresh e.costs
          simp only [run_bind]
          rw [run_capacityOrEstimate (e := planned S e r o) (capacityKey r o) hraw]
          exact .compiled ho hfresh hstatic

/-! ## Expected sizes -/

/-- What a request for an expected size comes to. -/
inductive EstimateOutcome (S : Schema n) (e : Engine n) (r : Root n) (o : Options) :
    Except Error Nat × Engine n → Prop where
  | known {size : Nat} (h : e.capacities.get? (capacityKey r o) = some size) :
      EstimateOutcome S e r o (.ok size, e)
  | failed {error : Error} (hnone : e.capacities.get? (capacityKey r o) = none)
      (h : S.fresh ⟨r.shape, o.includeInherited⟩ = .error error) :
      EstimateOutcome S e r o (.error error, planned S e r o)
  | compiled {raw : Nat} (hnone : e.capacities.get? (capacityKey r o) = none)
      (hraw : S.staticEstimate e.costs ⟨r.shape, o.includeInherited⟩ = .ok raw) :
      EstimateOutcome S e r o
        (.ok (Capacity.bucket raw), seed (planned S e r o) (capacityKey r o) raw)

theorem run_estimateCapacity_of_known {size : Nat}
    (h : e.capacities.get? (capacityKey r o) = some size) :
    (estimateCapacity S r o).run.run e = (.ok size, e) := by
  rw [estimateCapacity, run_get_bind, h]
  rfl

theorem estimateCapacity_outcome (he : e.plans.Sound S) (r : Root n) (o : Options) :
    EstimateOutcome S e r o ((estimateCapacity S r o).run.run e) := by
  cases hsize : e.capacities.get? (capacityKey r o) with
  | some size =>
      rw [run_estimateCapacity_of_known hsize]
      exact .known hsize
  | none =>
      have hrun : (estimateCapacity S r o).run.run e =
          (program S r o >>= fun p => capacityOrEstimate (capacityKey r o) p).run.run e := by
        rw [estimateCapacity, run_get_bind, hsize]
      rw [hrun, run_program_bind he]
      cases hfresh : S.fresh ⟨r.shape, o.includeInherited⟩ with
      | error error => exact .failed hsize hfresh
      | ok p =>
          obtain ⟨raw, hraw, hstatic⟩ := Schema.exists_staticEstimate hfresh e.costs
          simp only
          rw [run_capacityOrEstimate (e := planned S e r o) (capacityKey r o) hraw,
            show (planned S e r o).capacities.get? (capacityKey r o) = none from hsize]
          exact .compiled hsize hstatic

end Engine
end JsonPlan
