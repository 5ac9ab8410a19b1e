import JsonPlan.Encoder
import JsonPlan.Proofs.Layout.Tree
import JsonPlan.Proofs.Machine.Document
import JsonPlan.Proofs.Machine.Separator
import JsonPlan.Proofs.Machine.Writing
import JsonPlan.Proofs.Options

/-! Whole outputs of encoders: the document, inside the call of a callback if there is one. -/

namespace JsonPlan

/-- A document as the argument of the callback, if there is one. -/
def Options.wrap (o : Options) (document : String) : String :=
  match o.jsonpCallback with
  | none => document
  | some callback => callback ++ "(" ++ document ++ ")"

namespace Encoder

variable {n : Nat} {e : Encoder n} {v : View}

theorem failure_trace :
    (e.trace v).failure = none ↔ (run e.style e.program.steps v).failure = none := by
  rw [trace]
  split <;> simp

theorem text_trace (h : (run e.style e.program.steps v).failure = none) :
    (e.trace v).text = e.options.wrap (run e.style e.program.steps v).text := by
  rw [trace, Options.wrap]
  cases e.options.jsonpCallback with
  | none => rfl
  | some callback =>
      rw [Trace.text_append (by simp [h]), Trace.text_append rfl]
      simp

/-! ## Entry points -/

/-- What is remembered after a run that no sink has stopped. -/
def sizesAfter (e : Encoder n) (v : View) (sizes : CapacityCache) : CapacityCache :=
  match (e.trace v).failure with
  | none => e.record (e.trace v).text.utf8ByteSize sizes
  | some _ => sizes

/-- An encoding delivers the trace, and remembers the size of its text if nothing goes wrong. -/
theorem encode_eq {σ : Type} [Sink σ] (e : Encoder n) (v : View) (s : σ) (sizes : CapacityCache) :
    e.encode v s sizes =
      match (e.trace v).into (Sink.reserve s (e.presize sizes)) with
      | (s', none) => ((s', none), e.record (e.trace v).text.utf8ByteSize sizes)
      | (s', some error) => ((s', some error), sizes) := by
  have hinner := Trace.into_of_forwards Sink.forwards_counted
    (Counted.mk (Sink.reserve s (e.presize sizes)) 0) (e.trace v)
  rw [encode, write_eq, hinner]
  simp only [Trace.writing]
  rcases hinto : (e.trace v).into (Counted.mk (Sink.reserve s (e.presize sizes)) 0) with
    ⟨counted, _ | error⟩
  · have hsize := Trace.into_size Sink.size_counted hinto
    simp only [hsize, Nat.zero_add]
  · rfl

theorem toText_eq (e : Encoder n) (v : View) (sizes : CapacityCache) :
    e.toText v sizes =
      (match (e.trace v).failure with
        | none => .ok (e.trace v).text
        | some error => .error error,
      e.sizesAfter v sizes) := by
  rw [toText, write_eq, sizesAfter]
  simp only [Trace.writing, Trace.into_empty]
  cases (e.trace v).failure <;> rfl

theorem toWriter_eq (e : Encoder n) (v : View) (w : Writer) (sizes : CapacityCache) :
    e.toWriter v w sizes =
      match (e.trace v).into (Metered.mk w 0) with
      | (m, none) => ((m.writer, none), e.record (e.trace v).text.utf8ByteSize sizes)
      | (m, some error) => ((m.writer, some error), sizes) := by
  rw [toWriter, write_eq]
  simp only [Trace.writing]
  rcases hinto : (e.trace v).into (Metered.mk w 0) with ⟨m, _ | error⟩
  · have hsize := Trace.into_size Sink.size_metered hinto
    simp only [hsize, Nat.zero_add]
  · rfl

theorem encode_of_deliver {σ : Type} [Sink σ] {s s' : σ} {sizes : CapacityCache}
    (h : deliver (Sink.reserve s (e.presize sizes)) (e.trace v).chunks = (s', none)) :
    e.encode v s sizes = ((s', (e.trace v).failure), e.sizesAfter v sizes) := by
  rw [encode_eq, Trace.into, h, sizesAfter]
  cases (e.trace v).failure <;> rfl

theorem encode_of_accepts {σ : Type} [Sink σ] (h : Sink.Infallible σ) (s : σ)
    (sizes : CapacityCache) :
    e.encode v s sizes =
      ((Sink.after (Sink.reserve s (e.presize sizes)) (e.trace v).chunks, (e.trace v).failure),
        e.sizesAfter v sizes) :=
  encode_of_deliver (deliver_of_infallible h _ _)

theorem encode_of_infallible {σ : Type} [Sink σ] (hσ : Sink.Infallible σ)
    (h : (e.trace v).failure = none) (s : σ) (sizes : CapacityCache) :
    (e.encode v s sizes).1 =
      (Sink.after (Sink.reserve s (e.presize sizes)) (e.trace v).chunks, none) := by
  rw [encode_of_accepts hσ, h]

theorem encode_eq_ok {σ : Type} [Sink σ] {s : σ} {sizes : CapacityCache}
    (h : (e.encode v s sizes).1.2 = none) :
    (e.trace v).failure = none ∧
      (e.encode v s sizes).1.1 =
        Sink.after (Sink.reserve s (e.presize sizes)) (e.trace v).chunks := by
  rw [encode_eq] at h ⊢
  split at h
  · rename_i s' hinto
    obtain ⟨hfailure, hdeliver⟩ := Trace.into_eq_ok hinto
    exact ⟨hfailure, deliver_eq_ok hdeliver⟩
  · cases h

theorem toText_of_trace (h : (e.trace v).failure = none) (sizes : CapacityCache) :
    (e.toText v sizes).1 = .ok (e.trace v).text := by
  rw [toText_eq, h]

theorem toText_eq_ok {sizes : CapacityCache} {out : String}
    (h : (e.toText v sizes).1 = .ok out) :
    (e.trace v).failure = none ∧ (e.trace v).text = out := by
  rw [toText_eq] at h
  cases hfailure : (e.trace v).failure with
  | none =>
      rw [hfailure] at h
      exact ⟨rfl, Except.ok.inj h⟩
  | some error =>
      rw [hfailure] at h
      cases h

/-! ## An example -/

/-- An encoder of labelled counts, whose outputs are calls of `f`. -/
def labelledEncoder (name : String) : Encoder 4 :=
  let options := { Options.default with jsonpCallback := some "f" }
  ⟨(Schema.labelledLayout name).program, options, ⟨0, options.flags⟩,
    ⟨Schema.labelledRoot, false⟩⟩

section Labelled

variable {name : String} {label count : View}

theorem supplied_labelled :
    (Schema.labelledLayout name).Supplied (.object "Labelled" [label, count]) := by
  intro owner members fields h
  cases h with
  | here => simp
  | member mem read h =>
      rcases List.mem_cons.mp mem with rfl | mem
      · cases h
      · obtain rfl := List.mem_singleton.mp mem
        cases h with
        | optional present h => cases h

theorem finiteFloats_labelled (hlabel : label.isFinite) (hcount : count.isFinite) :
    (Schema.labelledLayout name).FiniteFloats (.object "Labelled" [label, count]) := by
  intro a w h
  cases h with
  | member mem read h =>
      rcases List.mem_cons.mp mem with rfl | mem
      · obtain rfl := Option.some.inj read
        cases h
        exact hlabel
      · obtain rfl := List.mem_singleton.mp mem
        obtain rfl := Option.some.inj read
        cases h with
        | optional present h =>
            cases h
            exact hcount

theorem names_labelled {s : Char}
    (h : (Schema.labelledLayout name).Names (.object "Labelled" [label, count]) s) :
    s ∈ name.toList ∨ s ∈ ("count" : String).toList := by
  obtain ⟨owner, members, w, hvisits, m, hm, hname⟩ := h
  cases hvisits with
  | here =>
      rcases List.mem_cons.mp hm with rfl | hm
      · exact .inl hname
      · obtain rfl := List.mem_singleton.mp hm
        exact .inr hname
  | member mem read h =>
      rcases List.mem_cons.mp mem with rfl | mem
      · cases h
      · obtain rfl := List.mem_singleton.mp mem
        cases h with
        | optional present h => cases h

theorem failure_trace_labelled (hlabel : label.isNull ∨ (Leaf.string true).matches label)
    (hcount : count.isNull ∨ Leaf.int.matches count) :
    ((labelledEncoder name).trace (.object "Labelled" [label, count])).failure = none := by
  rw [failure_trace]
  change (Layout.trace _ true (Schema.labelledLayout name) _).failure = none
  rw [Schema.labelledLayout, Layout.failure_trace_composite]
  intro m hm
  rcases List.mem_cons.mp hm with rfl | hm
  · rw [Layout.memberTrace_object rfl rfl, Layout.trace_atom, Leaf.failure_trace,
      Atom.matches_leaf]
    exact hlabel
  · obtain rfl := List.mem_singleton.mp hm
    rw [Layout.memberTrace_object rfl rfl, Layout.trace_optional, Opening.trace]
    cases hnull : count.isNull with
    | true => rfl
    | false =>
        rw [Layout.trace_atom, if_neg Bool.false_ne_true, Leaf.failure_trace]
        exact hcount

end Labelled

/-! ## Documents -/

variable {S : Schema n} {c : PlanCache n} {t : Fin n} {includeInherited : Bool}

/-- An encoder that runs a compiled program writes one document or fails, whatever it is given. -/
theorem encode_document (hc : c.Reachable S)
    (hp : (S.plan c t includeInherited).1 = .ok e.program) :
    ∃ L, S.layout includeInherited t = .ok L ∧
      ∀ v, L.Supplied v → L.FiniteFloats v →
        ∀ {σ : Type} [Sink σ] (s : σ) (sizes : CapacityCache),
          (e.encode v s sizes).1.2 = none →
            ∃ chunks document,
              (e.encode v s sizes).1.1 =
                Sink.after (Sink.reserve s (e.presize sizes)) chunks ∧
              String.join chunks = e.options.wrap document ∧
              (Json.parse document).isSome := by
  obtain ⟨L, hL, hprogram⟩ := hc.plan_eq_ok hp
  refine ⟨L, hL, fun v hsupplied hfinite σ _ s sizes hok => ?_⟩
  obtain ⟨htrace, hafter⟩ := encode_eq_ok hok
  have hrun := failure_trace.mp htrace
  have htext := text_trace hrun
  rw [hprogram] at hrun htext
  have hparse := (L.readsBack e.style v hrun hsupplied hfinite).parse
  exact ⟨_, _, hafter, htext, Option.isSome_of_eq_some hparse⟩

/-- The label is absent, which the shape did not announce. -/
theorem encode_document_labelled :
    ∃ out document,
      ((labelledEncoder "x").encode (.object "Labelled" [.null, .null]) "" .empty).1 =
        (out, none) ∧
      out = "f(" ++ document ++ ")" ∧ (Json.parse document).isSome := by
  obtain ⟨L, hL, hdocument⟩ := encode_document (e := labelledEncoder "x") .empty
    (Schema.plan_labelled "x" false)
  obtain rfl : L = Schema.labelledLayout "x" := by
    simpa [Schema.layout_labelled] using hL.symm
  have htrace : ((labelledEncoder "x").trace
      (.object "Labelled" [.null, .null])).failure = none :=
    failure_trace_labelled (.inl rfl) (.inl rfl)
  have hencode := encode_of_infallible Sink.infallible_string htrace "" .empty
  obtain ⟨chunks, document, hafter, htext, hparse⟩ := hdocument _ supplied_labelled
    (finiteFloats_labelled rfl rfl) "" .empty (by rw [hencode])
  rw [hencode] at hafter
  refine ⟨_, document, hencode, hafter.trans ?_, hparse⟩
  rw [Sink.after_string, htext]
  rfl

theorem exists_document_of_conforms {L : Layout} (hprogram : e.program = L.program)
    (sizes : CapacityCache) (hconforms : L.conforms v) (hfinite : L.FiniteFloats v) :
    ∃ document, (e.toText v sizes).1 = .ok (e.options.wrap document) ∧
      Json.parse document = some (L.tree e.style v) := by
  obtain ⟨hrun, _⟩ := L.refines_of_conforms e.style hconforms
  have hread := L.readsBack e.style v hrun (Layout.supplied_of_conforms hconforms) hfinite
  rw [Layout.written_eq_tree e.style hconforms] at hread
  have hok : (run e.style e.program.steps v).failure = none := by
    rw [hprogram]
    exact hrun
  refine ⟨(L.trace e.style true v).text, ?_, hread.parse⟩
  rw [toText_of_trace (failure_trace.mpr hok), text_trace hok, hprogram]
  rfl

/-- What is written for a conforming view reads back as its tree. -/
theorem parse_toText (hc : c.Reachable S)
    (hp : (S.plan c t includeInherited).1 = .ok e.program) :
    ∃ L, S.layout includeInherited t = .ok L ∧
      ∀ v sizes, L.conforms v → L.FiniteFloats v →
        ∃ document, (e.toText v sizes).1 = .ok (e.options.wrap document) ∧
          Json.parse document = some (L.tree e.style v) := by
  obtain ⟨L, hL, hprogram⟩ := hc.plan_eq_ok hp
  exact ⟨L, hL, fun v sizes => exists_document_of_conforms hprogram sizes⟩

theorem parse_toText_labelled :
    ∃ document,
      ((labelledEncoder "x").toText (.object "Labelled" [.str "y", .int 7]) .empty).1 =
        .ok ("f(" ++ document ++ ")") ∧
      Json.parse document =
        some (.object [("x", .string "y"), ("count", .number ⟨7, 0⟩)]) := by
  obtain ⟨L, hL, hparse⟩ := parse_toText (e := labelledEncoder "x") .empty
    (Schema.plan_labelled "x" false)
  obtain rfl : L = Schema.labelledLayout "x" := by
    simpa [Schema.layout_labelled] using hL.symm
  have hconforms : (Schema.labelledLayout "x").conforms
      (.object "Labelled" [.str "y", .int 7]) := by
    rw [Schema.labelledLayout, Layout.conforms_composite]
    simp [Layout.conforms_atom, Layout.conforms_optional, Atom.leaf, Primitive.leaf,
      Leaf.matches]
  obtain ⟨document, htext, htree⟩ := hparse _ .empty hconforms (finiteFloats_labelled rfl rfl)
  refine ⟨document, htext, htree.trans ?_⟩
  simp [Schema.labelledLayout, Layout.tree, Atom.leaf, Primitive.leaf, Leaf.tree, View.slot,
    View.isNull, Json.ofInt]

/-! ## Separators in calls -/

/-- In calls only names can bring a separator in, and they do: they are escaped once for calls and
for plain documents. -/
theorem lacks_call {L : Layout} (hprogram : e.program = L.program) {callback : String}
    (hcallback : e.options.jsonpCallback = some callback)
    (hoptions : e.options.checkEncodable = .ok ()) {s : Char} (hs : Json.IsSeparator s)
    (h : ¬ L.Names v s) : (e.trace v).Lacks s := by
  have hascii := Options.ascii_of_isCallbackPath
    (Options.isCallbackPath_of_checkEncodable hcallback hoptions)
  have hjsonp : e.style.jsonp = true := by simp [style, hcallback]
  have hrun := L.lacks_trace hjsonp hs h true
  have hlead : (Trace.emit [callback] ++ Trace.emit ["("]).Lacks s :=
    (Trace.lacks_emit_of_ascii hs.not_ascii (by simpa using hascii)).append
      (Trace.lacks_emit_of_ascii hs.not_ascii (by decide))
  have hclose : (Trace.emit [")"]).Lacks s :=
    Trace.lacks_emit_of_ascii hs.not_ascii (by decide)
  rw [trace, hcallback, hprogram]
  exact (hlead.append hrun).append hclose

theorem mem_call {L : Layout} (hprogram : e.program = L.program) {s : Char}
    (hs : Json.IsSeparator s) (h : L.Names v s) (hok : (e.trace v).failure = none) :
    s ∈ (e.trace v).text.toList := by
  have hrun := failure_trace.mp hok
  rw [text_trace hrun, hprogram]
  rw [hprogram] at hrun
  have hmem := Layout.mem_text_of_names hs h hrun
  rw [Options.wrap]
  split
  · exact hmem
  · simp only [String.toList_append, List.mem_append]
    exact .inl (.inr hmem)

/-- A call holds a separator exactly if it names a member with one. What was written before a
failure holds none without such a name either. -/
theorem separator_mem_call_iff (hc : c.Reachable S)
    (hp : (S.plan c t includeInherited).1 = .ok e.program) {callback : String}
    (hcallback : e.options.jsonpCallback = some callback)
    (hoptions : e.options.checkEncodable = .ok ()) :
    ∃ L, S.layout includeInherited t = .ok L ∧
      ∀ v s, Json.IsSeparator s →
        (s ∈ (e.trace v).text.toList → L.Names v s) ∧
        ∀ sizes out, (e.toText v sizes).1 = .ok out → (s ∈ out.toList ↔ L.Names v s) := by
  obtain ⟨L, hL, hprogram⟩ := hc.plan_eq_ok hp
  refine ⟨L, hL, fun v s hs => ?_⟩
  have hnames : s ∈ (e.trace v).text.toList → L.Names v s := by
    intro hmem
    by_contra h
    exact lacks_call hprogram hcallback hoptions hs h hmem
  refine ⟨hnames, fun sizes out hout => ?_⟩
  obtain ⟨hok, rfl⟩ := toText_eq_ok hout
  exact ⟨hnames, fun h => mem_call hprogram hs h hok⟩

theorem separator_mem_call_iff_labelled :
    ∃ out, ((labelledEncoder "x").toText (.object "Labelled" [.str "\u2028", .null]) .empty).1 =
        .ok out ∧ '\u2028' ∉ out.toList := by
  obtain ⟨L, hL, hcall⟩ := separator_mem_call_iff (e := labelledEncoder "x") .empty
    (Schema.plan_labelled "x" false) rfl (by decide)
  obtain rfl : L = Schema.labelledLayout "x" := by
    simpa [Schema.layout_labelled] using hL.symm
  have htrace : ((labelledEncoder "x").trace
      (.object "Labelled" [.str "\u2028", .null])).failure = none :=
    failure_trace_labelled (.inr rfl) (.inl rfl)
  have hout := toText_of_trace htrace .empty
  refine ⟨_, hout, ?_⟩
  rw [(hcall _ _ (.inl rfl)).2 _ _ hout]
  exact fun hnames => absurd (names_labelled hnames) (by decide)

/-- A member whose name holds a separator, in a call. -/
theorem separator_mem_call_labelled :
    ((Schema.labelled "a\u2028b").plan .empty Schema.labelledRoot false).1 =
        .ok (labelledEncoder "a\u2028b").program ∧
      (labelledEncoder "a\u2028b").options.jsonpCallback = some "f" ∧
      (labelledEncoder "a\u2028b").options.checkEncodable = .ok () ∧
      ∃ out, ((labelledEncoder "a\u2028b").toText
          (.object "Labelled" [.str "y", .null]) .empty).1 = .ok out ∧
        '\u2028' ∈ out.toList := by
  refine ⟨Schema.plan_labelled _ false, rfl, by decide, ?_⟩
  have htrace : ((labelledEncoder "a\u2028b").trace
      (.object "Labelled" [.str "y", .null])).failure = none :=
    failure_trace_labelled (.inr rfl) (.inl rfl)
  refine ⟨_, toText_of_trace htrace .empty, mem_call rfl (.inl rfl) ?_ htrace⟩
  exact ⟨_, _, _, .here, _, List.mem_cons_self, by decide⟩

end Encoder
end JsonPlan
