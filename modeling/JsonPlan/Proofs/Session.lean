import JsonPlan.Proofs.Engine
import JsonPlan.Proofs.Sending

/-!
What is remembered over any requests. A key has the bucket of the latest size that was written for
it, and only three things write: a caller who has seen a size, an encoding that is to record its
size, and an estimate for a key that has no size.
-/

namespace JsonPlan.Session

open Engine (capacityKey estimated planned seed)

variable {n : Nat} {S : Schema n} {s : Session n}

/-! ## Keys -/

/-- Two requests are about one size if their options differ in nothing but the name of the callback
and whether sizes are recorded. -/
theorem capacityKey_eq_iff {r r' : Root n} {o o' : Options} :
    capacityKey r o = capacityKey r' o' ↔
      r.type = r'.type ∧ o.dateFormat = o'.dateFormat ∧
        o.jsonpCallback.isSome = o'.jsonpCallback.isSome ∧ o.excludeNulls = o'.excludeNulls ∧
        o.includeInherited = o'.includeInherited ∧ o.prettyPrint = o'.prettyPrint := by
  rw [capacityKey, capacityKey, CapacityKey.mk.injEq, Options.flags_eq_iff]

/-! ## Writes -/

theorem write?_of_error {q : Request n} {error : Error} (h : (s.step S q).1 = .error error) :
    s.write? S q = none := by
  rw [write?, h]

theorem key?_of_write? {q : Request n} {k : CapacityKey} {raw : Nat}
    (h : s.write? S q = some (k, raw)) : s.key? q = some k := by
  rw [write?] at h
  split at h
  · obtain ⟨k', hkey, h⟩ := Option.bind_eq_some_iff.mp h
    obtain ⟨raw', -, h⟩ := Option.bind_eq_some_iff.mp h
    rw [hkey, (Prod.mk.inj (Option.some.inj h)).1]
  · cases h

/-- `s'` comes after `s` and one write. -/
structure Follows (S : Schema n) (s s' : Session n) (write : Option (CapacityKey × Nat)) :
    Prop where
  sizes : s'.sizes = s.sizes.setAll write.toList
  plans : s'.engine.plans.Sound S
  costs : s'.engine.costs = s.engine.costs
  /-- Only encoders whose key has a size are handed out. -/
  known : ∀ e ∈ s'.encoders, e ∈ s.encoders ∨ ∃ size, s'.sizes.get? e.key = some size

namespace Follows

theorem refl (hs : s.engine.plans.Sound S) : Follows S s s none :=
  ⟨rfl, hs, rfl, fun _ he => .inl he⟩

theorem planned (hs : s.engine.plans.Sound S) (r : Root n) (o : Options) :
    Follows S s { s with engine := planned S s.engine r o } none :=
  ⟨rfl, Engine.planned_sound hs, rfl, fun _ he => .inl he⟩

theorem sent (hs : s.engine.plans.Sound S) (write : Option (CapacityKey × Nat)) :
    Follows S s { s with engine := { s.engine with
      capacities := s.sizes.setAll write.toList } } write :=
  ⟨rfl, hs, rfl, fun _ he => .inl he⟩

theorem seeded (hs : s.engine.plans.Sound S) (r : Root n) (o : Options) (k : CapacityKey) (raw : Nat)
    {added : List (Encoder n)} (hadded : ∀ e ∈ added, e.key = k) :
    Follows S s ⟨seed (Engine.planned S s.engine r o) k raw, s.encoders ++ added⟩
      (estimated s.sizes k raw) where
  sizes := rfl
  plans := Engine.planned_sound hs
  costs := rfl
  known e he := by
    rcases List.mem_append.mp he with he | he
    · exact .inl he
    · rw [hadded e he]
      exact .inr (Engine.exists_get?_seed _ k raw)

end Follows

section Steps

variable (hs : s.engine.plans.Sound S)

include hs

theorem follows_program (r : Root n) (o : Options) :
    Follows S s (s.step S (.program r o)).2 (s.write? S (.program r o)) := by
  have hwrite : s.write? S (.program r o) = none := by
    rw [write?]
    split <;> rfl
  rw [hwrite, step, Engine.run_program hs]
  exact .planned hs r o

theorem follows_encoder (r : Root n) (o : Options) :
    Follows S s (s.step S (.encoder r o)).2 (s.write? S (.encoder r o)) := by
  have houtcome := Engine.encoder_outcome hs r o
  rw [write?, step]
  generalize (Engine.encoder S r o).run.run s.engine = result at houtcome ⊢
  cases houtcome with
  | refused => exact .refl hs
  | failed => exact .planned hs r o
  | @compiled p raw ho hp hraw =>
      have hseeded := @Follows.seeded n S s hs r o (capacityKey r o) raw
        [⟨p, o, capacityKey r o, ⟨r.shape, o.includeInherited⟩⟩] (by simp)
      -- The estimate is written only if the key had no size.
      simp only [key?, raw?, hraw]
      rw [estimated] at hseeded
      cases hsize : s.sizes.get? (capacityKey r o) <;> rw [hsize] at hseeded <;> exact hseeded

theorem follows_estimateCapacity (r : Root n) (o : Options) :
    Follows S s (s.step S (.estimateCapacity r o)).2 (s.write? S (.estimateCapacity r o)) := by
  have houtcome := Engine.estimateCapacity_outcome hs r o
  rw [write?, step]
  generalize (Engine.estimateCapacity S r o).run.run s.engine = result at houtcome ⊢
  cases houtcome with
  | known hsize =>
      simp only [key?, raw?, show s.sizes.get? (capacityKey r o) = some _ from hsize]
      exact .refl hs
  | failed => exact .planned hs r o
  | @compiled raw hnone hraw =>
      have hseeded := @Follows.seeded n S s hs r o (capacityKey r o) raw [] (List.forall_mem_nil _)
      rw [List.append_nil, estimated, show s.sizes.get? (capacityKey r o) = none from hnone]
        at hseeded
      simp only [key?, raw?, show s.sizes.get? (capacityKey r o) = none from hnone, hraw]
      exact hseeded

theorem follows_encode (place : Nat) (v : View) (d : Destination) :
    Follows S s (s.step S (.encode place v d)).2 (s.write? S (.encode place v d)) := by
  rw [write?, step]
  simp only [key?, raw?]
  cases s.encoders[place]? with
  | none => exact .refl hs
  | some e =>
      have hsizes := e.send_snd v s.sizes d
      simp only [Option.map_some, Option.bind_some]
      generalize e.send v s.sizes d = sent at hsizes ⊢
      obtain ⟨error | done, capacities⟩ := sent
      · obtain rfl : capacities = s.sizes := hsizes
        exact .refl hs
      · obtain rfl : capacities = e.record (e.trace v).text.utf8ByteSize s.sizes := hsizes
        rw [Encoder.record]
        cases e.options.recordSizes with
        | false => exact .refl hs
        | true => exact .sent hs (some (e.key, (e.trace v).text.utf8ByteSize))

/-- What a request writes is all that it changes about the sizes. -/
theorem step_follows (q : Request n) : Follows S s (s.step S q).2 (s.write? S q) := by
  cases q with
  | program r o => exact follows_program hs r o
  | encoder r o => exact follows_encoder hs r o
  | estimateCapacity r o => exact follows_estimateCapacity hs r o
  | recordObservedSize r o size => exact .sent hs (some (capacityKey r o, size))
  | encode place v d => exact follows_encode hs place v d

end Steps

/-! ## Replies -/

section Replies

variable {r : Root n} {o : Options} {reply : Reply n} {s' : Session n}

theorem step_encoder_of_refused {error : Error} (h : o.checkEncodable = .error error) :
    s.step S (.encoder r o) = (.error error, s) := by
  rw [step, Engine.run_encoder_of_refused h]

theorem step_estimateCapacity_of_known {size : Nat}
    (h : s.sizes.get? (capacityKey r o) = some size) :
    s.step S (.estimateCapacity r o) = (.ok (.size size), s) := by
  rw [step, Engine.run_estimateCapacity_of_known h]
  rfl

/-- What a request for an encoder comes to, with the session after it. -/
inductive EncoderReply (S : Schema n) (s : Session n) (r : Root n) (o : Options) :
    Except Error (Reply n) × Session n → Prop where
  | refused {error : Error} (ho : o.checkEncodable = .error error) :
      EncoderReply S s r o (.error error, s)
  | failed {error : Error} {s' : Session n} (ho : o.checkEncodable = .ok ())
      (h : S.fresh ⟨r.shape, o.includeInherited⟩ = .error error) :
      EncoderReply S s r o (.error error, s')
  | obtained {e : Encoder n} {s' : Session n} (ho : o.checkEncodable = .ok ())
      (hprogram : S.fresh ⟨r.shape, o.includeInherited⟩ = .ok e.program)
      (hoptions : e.options = o) (hkey : e.key = capacityKey r o)
      (hheld : s'.encoders = s.encoders ++ [e]) :
      EncoderReply S s r o (.ok (.encoder e), s')

theorem step_encoder_reply (hs : s.engine.plans.Sound S) (r : Root n) (o : Options) :
    EncoderReply S s r o (s.step S (.encoder r o)) := by
  have houtcome := Engine.encoder_outcome hs r o
  rw [step]
  generalize (Engine.encoder S r o).run.run s.engine = result at houtcome ⊢
  cases houtcome with
  | refused ho => exact .refused ho
  | failed ho hfresh => exact .failed ho hfresh
  | compiled ho hfresh _ => exact .obtained ho hfresh rfl rfl rfl

/-- An encoder that is handed out has the options and the key that were asked for. -/
theorem step_encoder_eq_ok (hs : s.engine.plans.Sound S)
    (h : s.step S (.encoder r o) = (.ok reply, s')) :
    ∃ e, reply = .encoder e ∧ e.key = capacityKey r o ∧ e.options = o ∧
      s'.encoders = s.encoders ++ [e] := by
  have hreply := step_encoder_reply hs r o
  rw [h] at hreply
  cases hreply with
  | obtained _ _ hoptions hkey hheld => exact ⟨_, rfl, hkey, hoptions, hheld⟩

/-- An estimate that is handed out is the size of the key from then on. -/
theorem step_estimateCapacity_eq_ok (hs : s.engine.plans.Sound S)
    (h : s.step S (.estimateCapacity r o) = (.ok reply, s')) :
    ∃ size, reply = .size size ∧ s'.sizes.get? (capacityKey r o) = some size := by
  have houtcome := Engine.estimateCapacity_outcome hs r o
  rw [step] at h
  generalize (Engine.estimateCapacity S r o).run.run s.engine = result at houtcome h
  cases houtcome with
  | @known size hsize =>
      obtain ⟨hreply, rfl⟩ := Prod.mk.inj h
      exact ⟨size, (Except.ok.inj hreply).symm, hsize⟩
  | failed => cases (Prod.mk.inj h).1
  | @compiled raw hnone =>
      obtain ⟨hreply, rfl⟩ := Prod.mk.inj h
      refine ⟨_, (Except.ok.inj hreply).symm, ?_⟩
      rw [sizes, Engine.seed_of_none (e := planned S s.engine r o) hnone]
      exact CapacityCache.get?_set_self _ _ raw

end Replies

/-! ## Sequences of requests -/

/-- What holds between requests. -/
structure Sound (S : Schema n) (costs : CostTable) (s : Session n) : Prop where
  plans : s.engine.plans.Sound S
  costs : s.engine.costs = costs
  known : ∀ e ∈ s.encoders, ∃ size, s.sizes.get? e.key = some size

variable {costs : CostTable}

theorem sound_new (S : Schema n) (costs : CostTable) : (new costs : Session n).Sound S costs :=
  ⟨PlanCache.sound_empty S, rfl, List.forall_mem_nil _⟩

theorem Sound.step (hs : s.Sound S costs) (q : Request n) : (s.step S q).2.Sound S costs := by
  have hfollows := step_follows hs.plans q
  refine ⟨hfollows.plans, hfollows.costs.trans hs.costs, fun e he => ?_⟩
  rcases hfollows.known e he with he | hknown
  · obtain ⟨size, hsize⟩ := hs.known e he
    rw [hfollows.sizes]
    exact CapacityCache.exists_get?_setAll hsize _
  · exact hknown

theorem Sound.run (hs : s.Sound S costs) (qs : List (Request n)) : (s.run S qs).Sound S costs := by
  induction qs generalizing s with
  | nil => exact hs
  | cons q rest ih => exact ih (hs.step q)

/-- The sizes after requests are what these wrote, one after another. -/
theorem Sound.sizes_run (hs : s.Sound S costs) (qs : List (Request n)) :
    (s.run S qs).sizes = s.sizes.setAll (s.writes S qs) := by
  induction qs generalizing s with
  | nil => rfl
  | cons q rest ih =>
      rw [writes, CapacityCache.setAll_append, ← (step_follows hs.plans q).sizes]
      exact ih (hs.step q)

theorem get?_setAll_of_key?_ne {q : Request n} {k : CapacityKey} (h : s.key? q ≠ some k) :
    (s.sizes.setAll (s.write? S q).toList).get? k = s.sizes.get? k := by
  cases hwrite : s.write? S q with
  | none => rfl
  | some write =>
      have hk : k ≠ write.1 := fun hk => h (hk ▸ key?_of_write? hwrite)
      exact s.sizes.get?_set_of_ne hk write.2

/-! ## What is remembered -/

/-- `s` remembers what `requests` wrote to the sizes of a new engine, and goes on to do so. -/
structure Remembers (S : Schema n) (costs : CostTable) (requests : List (Request n))
    (s : Session n) : Prop where
  /-- The latest write for a key counts; a key without one has no size. -/
  latest (k : CapacityKey) : s.sizes.get? k =
    (((new costs).writes S requests).reverse.lookup k).map Capacity.bucket
  costs_eq : s.engine.costs = costs
  failed {q : Request n} {error : Error} :
    (s.step S q).1 = .error error → (s.step S q).2.sizes = s.sizes
  refused {r : Root n} {o : Options} {error : Error} :
    o.checkEncodable = .error error → s.step S (.encoder r o) = (.error error, s)
  /-- Requests about one type and its flags leave the others alone. -/
  other {q : Request n} {k : CapacityKey} :
    s.key? q ≠ some k → (s.step S q).2.sizes.get? k = s.sizes.get? k
  /-- Options may differ in the name of the callback and in whether sizes are recorded. -/
  shared {r r' : Root n} {o o' : Options} : capacityKey r o = capacityKey r' o' ↔
    r.type = r'.type ∧ o.dateFormat = o'.dateFormat ∧
      o.jsonpCallback.isSome = o'.jsonpCallback.isSome ∧ o.excludeNulls = o'.excludeNulls ∧
      o.includeInherited = o'.includeInherited ∧ o.prettyPrint = o'.prettyPrint
  kept {k : CapacityKey} {size : Nat} : s.sizes.get? k = some size →
    ∀ later, ∃ size', (s.run S later).sizes.get? k = some size'
  known {r : Root n} {o : Options} {size : Nat} : s.sizes.get? (capacityKey r o) = some size →
    s.step S (.estimateCapacity r o) = (.ok (.size size), s)
  estimates {r : Root n} {o : Options} {reply : Reply n} {s' : Session n} :
    s.step S (.estimateCapacity r o) = (.ok reply, s') →
      ∃ size, reply = .size size ∧ s'.sizes.get? (capacityKey r o) = some size
  obtains {r : Root n} {o : Options} {reply : Reply n} {s' : Session n} :
    s.step S (.encoder r o) = (.ok reply, s') →
      ∃ e, reply = .encoder e ∧ e.key = capacityKey r o ∧ e.options = o ∧
        s'.encoders = s.encoders ++ [e]
  /-- An encoder announces the size of its key, up to a limit. -/
  reserves {e : Encoder n} : e ∈ s.encoders →
    ∃ size, s.sizes.get? e.key = some size ∧
      ∀ (v : View) {σ : Type} [Sink σ] (destination : σ),
        (e.encode v destination s.sizes).1 =
          (e.trace v).into (Sink.reserve destination (min size (2 ^ 20)))
  delivers {e : Encoder n} {v : View} {d : Destination} :
    (e.send v s.sizes d).1 = .ok () → d.Receives e v s.sizes (e.trace v).text

theorem remembers_run (S : Schema n) (costs : CostTable) (requests : List (Request n)) :
    Remembers S costs requests ((new costs).run S requests) := by
  have hs := (sound_new S costs).run requests
  exact {
    latest := fun k => by
      rw [(sound_new S costs).sizes_run requests, CapacityCache.get?_setAll]
      exact Option.or_none
    costs_eq := hs.costs
    failed := fun {q error} hq => by
      rw [(step_follows hs.plans q).sizes, write?_of_error hq]
      rfl
    refused := step_encoder_of_refused
    other := fun {q k} hk => by
      rw [(step_follows hs.plans q).sizes]
      exact get?_setAll_of_key?_ne hk
    shared := capacityKey_eq_iff
    kept := fun {k size} hsize later => by
      rw [hs.sizes_run later]
      exact CapacityCache.exists_get?_setAll hsize _
    known := step_estimateCapacity_of_known
    estimates := step_estimateCapacity_eq_ok hs.plans
    obtains := step_encoder_eq_ok hs.plans
    reserves := fun {e} he => by
      obtain ⟨size, hsize⟩ := hs.known e he
      refine ⟨size, hsize, fun v σ _ destination => ?_⟩
      rw [Encoder.encode_fst, Encoder.presize, CapacityCache.get, hsize]
      rfl
    delivers := Encoder.receives_of_send }

/-- A size that was seen replaces the estimate of 64 bytes, also for the encoder that was obtained
before. Refused options leave it as it is. -/
theorem remembers_run_labelled :
    let r : Root 4 := ⟨0, Schema.labelledRoot⟩
    let s := (new .default).run (Schema.labelled "x")
      [.encoder r .default, .recordObservedSize r .default 100]
    s.step (Schema.labelled "x") (.estimateCapacity r .default) = (.ok (.size 128), s) ∧
      s.step (Schema.labelled "x") (.encoder r { Options.default with prettyPrint := true }) =
        (.error (.unsupportedOption "pretty_print"), s) ∧
      ∃ e ∈ s.encoders, ∀ v,
        (e.encode v Recorder.new s.sizes).1 = (e.trace v).into ⟨#[], #[128]⟩ := by
  intro r s
  have hs := remembers_run (Schema.labelled "x") .default
    [.encoder r .default, .recordObservedSize r .default 100]
  have hsize : s.sizes.get? (capacityKey r .default) = some 128 := by
    rw [hs.latest, writes, List.reverse_append]
    rfl
  have hobtained : ∃ e ∈ s.encoders, e.key = capacityKey r .default := by
    have houtcome := Engine.encoder_outcome (e := .new .default)
      (PlanCache.sound_empty (Schema.labelled "x")) r .default
    change ∃ e ∈ ((new .default).step (Schema.labelled "x") (.encoder r .default)).2.encoders, _
    rw [step, new]
    generalize (Engine.encoder (Schema.labelled "x") r .default).run.run _ = result at houtcome ⊢
    cases houtcome with
    | refused ho => cases ho
    | failed _ h => cases h.symm.trans (Schema.plan_labelled "x" false)
    | compiled => exact ⟨_, List.mem_singleton_self _, rfl⟩
  obtain ⟨e, he, hkey⟩ := hobtained
  obtain ⟨size, hknown, hencode⟩ := hs.reserves he
  rw [hkey] at hknown
  obtain rfl : size = 128 := Option.some.inj (hknown.symm.trans hsize)
  exact ⟨hs.known hsize, hs.refused rfl, e, he, fun v => hencode v Recorder.new⟩

end JsonPlan.Session
