import JsonPlan.Proofs.Session

/-!
The first thing that happens to a request for an encoder. Options that an encoder cannot honour are
refused before anything is compiled or remembered. Past them only the shape can stand in the way, and
what an encoder writes is its callback around a text that does not depend on the callback.
-/

namespace JsonPlan.Session

variable {n : Nat} {S : Schema n} {s s' : Session n} {r : Root n} {o : Options} {e : Encoder n}

/-- Past the check an encoder is obtained unless the shape has no program. -/
theorem failure?_step_encoder (hs : s.engine.plans.Sound S) (ho : o.checkEncodable = .ok ()) :
    failure? (s.step S (.encoder r o)).1 = failure? (S.fresh ⟨r.shape, o.includeInherited⟩) := by
  have hreply := step_encoder_reply hs r o
  generalize s.step S (.encoder r o) = result at hreply ⊢
  cases hreply with
  | refused hrefused => cases ho.symm.trans hrefused
  | failed _ hfresh => rw [hfresh, failure?_error, failure?_error]
  | obtained _ hfresh _ _ _ => rw [hfresh, failure?_ok, failure?_ok]

theorem exists_step_encoder {p : Program} (hs : s.engine.plans.Sound S)
    (ho : o.checkEncodable = .ok ()) (hp : S.fresh ⟨r.shape, o.includeInherited⟩ = .ok p) :
    ∃ e s', s.step S (.encoder r o) = (.ok (.encoder e), s') ∧ e.program = p ∧ e.options = o := by
  have hreply := step_encoder_reply hs r o
  generalize s.step S (.encoder r o) = result at hreply ⊢
  cases hreply with
  | refused hrefused => cases ho.symm.trans hrefused
  | failed _ hfailed => cases hp.symm.trans hfailed
  | obtained _ hprogram hoptions _ _ =>
      exact ⟨_, _, rfl, Except.ok.inj (hprogram.symm.trans hp), hoptions⟩

/-- An encoder has the options that were asked for, and runs the program of a first request. -/
theorem fresh_of_step_encoder (hs : s.engine.plans.Sound S)
    (h : s.step S (.encoder r o) = (.ok (.encoder e), s')) :
    S.fresh ⟨r.shape, o.includeInherited⟩ = .ok e.program ∧ e.options = o := by
  have hreply := step_encoder_reply hs r o
  rw [h] at hreply
  cases hreply with
  | obtained _ hfresh hoptions _ _ => exact ⟨hfresh, hoptions⟩

/-- The argument of a callback: what the program of a root writes, without regard to the name of the
callback. Without a program there is none. -/
def argument (S : Schema n) (r : Root n) (o : Options) (v : View) : String :=
  match S.fresh ⟨r.shape, o.includeInherited⟩ with
  | .ok p => (JsonPlan.run ⟨o.dateFormat, true⟩ p.steps v).text
  | .error _ => ""

theorem text_of_step_encoder {callback : String} {v : View} (hs : s.engine.plans.Sound S)
    (h : s.step S (.encoder r { o with jsonpCallback := some callback }) = (.ok (.encoder e), s'))
    (hv : (e.trace v).failure = none) :
    (e.trace v).text = callback ++ "(" ++ argument S r o v ++ ")" := by
  obtain ⟨hfresh, hoptions⟩ := fresh_of_step_encoder hs h
  have hstyle : e.style = ⟨o.dateFormat, true⟩ := by
    rw [Encoder.style, hoptions]
    rfl
  have hargument : argument S r o v = (JsonPlan.run e.style e.program.steps v).text := by
    rw [argument, hstyle]
    simp only at hfresh
    rw [hfresh]
  rw [Encoder.text_trace (Encoder.failure_trace.mp hv), hargument, hoptions]
  rfl

/-- The check of options passes for exactly those without the two switches and with no callback or
one of the grammar. Options that do not pass are refused whatever the shape is, and nothing changes.
Those that pass get an encoder unless the shape has no program. With a callback, every encoding that
succeeds delivers the callback and, in brackets, a text that is the same for every callback and after
any requests. -/
theorem encoder_gate (S : Schema n) (r : Root n) (o : Options) :
    (o.checkEncodable = .ok () ↔ o.prettyPrint = false ∧ o.excludeNulls = false ∧
      ∀ callback, o.jsonpCallback = some callback → callback.toList ∈ Options.callbackPath) ∧
    (∀ error, o.checkEncodable = .error error → o.Refused error ∧
      ∀ s : Session n, s.step S (.encoder r o) = (.error error, s)) ∧
    (o.checkEncodable = .ok () → ∀ costs requests,
      failure? (((new costs).run S requests).step S (.encoder r o)).1 =
        failure? (S.fresh ⟨r.shape, o.includeInherited⟩)) ∧
    ∃ argument : View → String, ∀ callback costs requests e s',
      ((new costs).run S requests).step S (.encoder r { o with jsonpCallback := some callback }) =
          (.ok (.encoder e), s') →
        ∀ v d sizes, (e.send v sizes d).1 = .ok () →
          d.Receives e v sizes (callback ++ "(" ++ argument v ++ ")") := by
  have hsound (costs : CostTable) (requests : List (Request n)) :=
    ((sound_new S costs).run requests).plans
  refine ⟨Options.checkEncodable_eq_ok_iff, fun error ho => ⟨Options.refused_of_checkEncodable ho,
    fun s => step_encoder_of_refused ho⟩, fun ho costs requests => ?_, argument S r o, ?_⟩
  · exact failure?_step_encoder (hsound costs requests) ho
  · intro callback costs requests e s' hstep v d sizes hsend
    obtain ⟨hfailure, hreceives⟩ := Encoder.send_eq_ok hsend
    rwa [text_of_step_encoder (hsound costs requests) hstep hfailure] at hreceives

/-- Two callbacks around one text, and a text that is no callback. -/
theorem encoder_gate_labelled :
    (∀ s : Session 4, s.step (Schema.labelled "x") (.encoder ⟨0, Schema.labelledRoot⟩
        { Options.default with jsonpCallback := some "f..g" }) =
      (.error (.invalidCallback "f..g"), s)) ∧
    ∃ argument : String, ∀ callback ∈ ["f", "f.$g"], ∃ e s',
      (new .default).step (Schema.labelled "x") (.encoder ⟨0, Schema.labelledRoot⟩
          { Options.default with jsonpCallback := some callback }) = (.ok (.encoder e), s') ∧
        (e.toText (.object "Labelled" [.null, .null]) .empty).1 =
          .ok (callback ++ "(" ++ argument ++ ")") := by
  obtain ⟨-, hrefused, -, -⟩ := encoder_gate (Schema.labelled "x") ⟨0, Schema.labelledRoot⟩
    { Options.default with jsonpCallback := some "f..g" }
  obtain ⟨-, -, -, argument, hwrites⟩ := encoder_gate (Schema.labelled "x")
    ⟨0, Schema.labelledRoot⟩ Options.default
  refine ⟨(hrefused _ (by decide +kernel)).2, argument (.object "Labelled" [.null, .null]), ?_⟩
  intro callback hcallback
  have hpasses : ∀ callback ∈ ["f", "f.$g"],
      ({ Options.default with jsonpCallback := some callback } : Options).checkEncodable = .ok () := by
    decide +kernel
  have hfresh : (Schema.labelled "x").fresh ⟨Schema.labelledRoot, false⟩ =
      .ok (Schema.labelledLayout "x").program := Schema.plan_labelled "x" false
  obtain ⟨e, s', hstep, hprogram, hoptions⟩ := exists_step_encoder (r := ⟨0, Schema.labelledRoot⟩)
    (sound_new _ .default).plans (hpasses callback hcallback) hfresh
  -- The run is that of an encoder for another callback.
  have hsame : JsonPlan.run e.style e.program.steps (.object "Labelled" [.null, .null]) =
      JsonPlan.run (Encoder.labelledEncoder "x").style (Encoder.labelledEncoder "x").program.steps
        (.object "Labelled" [.null, .null]) := by
    rw [Encoder.style, hoptions, hprogram]
    rfl
  have hfailure : (e.trace (.object "Labelled" [.null, .null])).failure = none := by
    rw [Encoder.failure_trace, hsame, ← Encoder.failure_trace]
    exact Encoder.failure_trace_labelled (.inl rfl) (.inl rfl)
  have hsend : (e.send (.object "Labelled" [.null, .null]) .empty .text).1 = .ok () := by
    simp only [Encoder.send, Encoder.toText_of_trace hfailure]
    rfl
  exact ⟨e, s', hstep, hwrites callback .default [] e s' hstep _ .text .empty hsend⟩

end JsonPlan.Session
