import JsonPlan.Proofs.Capacity
import JsonPlan.Proofs.Encoder
import JsonPlan.Proofs.Output.Writer

/-!
The ways into an encoder. They hand over the same bytes, end the same way and remember the same
size, unless a writer has no room for the bytes.
-/

namespace JsonPlan.Encoder

variable {n : Nat} {e : Encoder n} {v : View} {sizes : CapacityCache}

/-! ## Deliveries that go through -/

theorem toWriter_of_deliver {w w' : Writer} {written : Nat}
    (h : deliver (Metered.mk w 0) (e.trace v).chunks = (⟨w', written⟩, none)) :
    e.toWriter v w sizes = ((w', (e.trace v).failure), e.sizesAfter v sizes) := by
  rw [toWriter_eq, Trace.into, h, sizesAfter]
  cases (e.trace v).failure <;> rfl

/-- A sink that is lent out takes what it would take itself, and refuses the same. -/
theorem encode_borrowed {σ : Type} [Sink σ] (e : Encoder n) (v : View) (s : σ)
    (sizes : CapacityCache) :
    e.encode v (Borrowed.mk s) sizes =
      ((⟨(e.encode v s sizes).1.1⟩, (e.encode v s sizes).1.2), (e.encode v s sizes).2) := by
  have hinner := Trace.into_of_forwards Sink.forwards_borrowed
    (Sink.reserve (Borrowed.mk s) (e.presize sizes)) (e.trace v)
  have hreserve : (Sink.reserve (Borrowed.mk s) (e.presize sizes)).inner =
      Sink.reserve s (e.presize sizes) := rfl
  rw [encode_eq, encode_eq, ← hreserve, hinner]
  rcases (e.trace v).into (Sink.reserve (Borrowed.mk s) (e.presize sizes)) with
    ⟨s', _ | error⟩ <;> rfl

/-! ## What is remembered -/

theorem get?_sizesAfter (hok : (e.trace v).failure = none) (hrecord : e.options.recordSizes = true) :
    (e.sizesAfter v sizes).get? e.key =
        some (Capacity.bucket (e.trace v).text.utf8ByteSize) ∧
      ∀ k ≠ e.key, (e.sizesAfter v sizes).get? k = sizes.get? k := by
  rw [sizesAfter, hok]
  simp only [record, if_pos hrecord]
  exact ⟨sizes.get?_set_self _ _, fun k hk => sizes.get?_set_of_ne hk _⟩

theorem sizesAfter_of_not (h : ¬ ((e.trace v).failure = none ∧ e.options.recordSizes = true)) :
    e.sizesAfter v sizes = sizes := by
  rw [sizesAfter]
  cases hfailure : (e.trace v).failure with
  | none => exact if_neg fun hrecord => h ⟨hfailure, hrecord⟩
  | some error => rfl

/-! ## Agreement -/

/-- Every way into the encoder hands over `chunks`, ends as `failure` says and leaves `sizes'`. -/
structure Delivers (e : Encoder n) (v : View) (sizes : CapacityCache) (chunks : List String)
    (failure : Option Error) (sizes' : CapacityCache) : Prop where
  toText : e.toText v sizes =
    (match failure with
      | none => .ok (String.join chunks)
      | some error => .error error,
    sizes')
  string (s : String) : e.encode v s sizes = ((s ++ String.join chunks, failure), sizes')
  bytes (b : ByteArray) :
    e.encode v b sizes = ((b ++ (String.join chunks).toUTF8, failure), sizes')
  /-- Any sink that refuses nothing, whatever it does with characters and announcements. -/
  sink {σ : Type} [Sink σ] {held : σ → ByteArray} (h : Sink.Appends held) (s : σ) :
    ∃ s', e.encode v s sizes = ((s', failure), sizes') ∧
      held s' = held s ++ (String.join chunks).toUTF8
  /-- A sink that only takes texts gets them one by one. -/
  onlyTexts {σ : Type} {put : σ → String → σ × Option Error}
    (h : ∀ s chunk, (put s chunk).2 = none) (s : σ) :
    letI := Sink.ofWrite put
    e.encode v s sizes = ((chunks.foldl (fun s chunk => (put s chunk).1) s, failure), sizes')
  /-- To lend out a sink, also one that refuses something, makes no difference. -/
  borrowed {σ : Type} [Sink σ] (s : σ) :
    e.encode v (Borrowed.mk s) sizes =
      ((⟨(e.encode v s sizes).1.1⟩, (e.encode v s sizes).1.2), (e.encode v s sizes).2)
  metered (held : ByteArray) (reason : String) (written : Nat) :
    e.encode v (Metered.mk ⟨held, none, reason⟩ written) sizes =
      ((⟨⟨held ++ (String.join chunks).toUTF8, none, reason⟩,
        written + (String.join chunks).utf8ByteSize⟩, failure), sizes')
  toWriter (held : ByteArray) (reason : String) :
    e.toWriter v ⟨held, none, reason⟩ sizes =
      ((⟨held ++ (String.join chunks).toUTF8, none, reason⟩, failure), sizes')

theorem delivers_trace (e : Encoder n) (v : View) (sizes : CapacityCache) :
    e.Delivers v sizes (e.trace v).chunks (e.trace v).failure (e.sizesAfter v sizes) where
  toText := toText_eq e v sizes
  string s := by
    rw [encode_of_accepts Sink.infallible_string, Sink.after_string]
    rfl
  bytes b := by
    have hafter := Sink.appends_bytes.after b (e.trace v).chunks
    rw [encode_of_accepts Sink.appends_bytes.accepts]
    exact congrArg (fun b' => ((b', _), _)) hafter
  sink h s := ⟨_, encode_of_accepts h.accepts s sizes, by rw [h.after, h.reserve]⟩
  onlyTexts {σ put} h s := by
    let := Sink.ofWrite put
    exact encode_of_accepts h s sizes
  borrowed s := encode_borrowed e v s sizes
  metered held reason written :=
    encode_of_deliver (deliver_of_fits fun _ hroom => nomatch hroom)
  toWriter held reason :=
    toWriter_of_deliver (deliver_of_fits fun _ hroom => nomatch hroom)

/-- All ways into an encoder hand over the same chunks, end the same way and leave the same sizes: on
success the size of the chunks for the encoder's own key, if sizes are to be remembered. -/
theorem entry_points_agree (e : Encoder n) (v : View) (sizes : CapacityCache) :
    ∃ chunks failure sizes', e.Delivers v sizes chunks failure sizes' ∧
      (failure = none → e.options.recordSizes = true →
        sizes'.get? e.key = some (Capacity.bucket (String.join chunks).utf8ByteSize) ∧
          ∀ k ≠ e.key, sizes'.get? k = sizes.get? k) ∧
      (¬ (failure = none ∧ e.options.recordSizes = true) → sizes' = sizes) :=
  ⟨_, _, _, delivers_trace e v sizes, get?_sizesAfter, sizesAfter_of_not⟩

theorem entry_points_agree_labelled :
    ∃ out sizes',
      (labelledEncoder "x").toText (.object "Labelled" [.str "é", .null]) .empty =
        (.ok out, sizes') ∧
      (∃ s', (labelledEncoder "x").encode (.object "Labelled" [.str "é", .null])
          (Borrowed.mk "old") .empty = ((s', none), sizes') ∧
        s'.inner.toUTF8 = ("old" : String).toUTF8 ++ out.toUTF8) ∧
      sizes'.get? (labelledEncoder "x").key = some (Capacity.bucket out.utf8ByteSize) := by
  obtain ⟨chunks, failure, sizes', hdelivers, hrecorded, -⟩ :=
    entry_points_agree (labelledEncoder "x") (.object "Labelled" [.str "é", .null]) .empty
  have htrace : ((labelledEncoder "x").trace
      (.object "Labelled" [.str "é", .null])).failure = none :=
    failure_trace_labelled (.inr rfl) (.inl rfl)
  have hout := toText_of_trace htrace .empty
  rw [hdelivers.toText] at hout
  obtain rfl : failure = none := by
    cases failure with
    | none => rfl
    | some error => cases hout
  exact ⟨_, sizes', hdelivers.toText, hdelivers.sink Sink.appends_string.borrowed ⟨"old"⟩,
    (hrecorded rfl rfl).1⟩

/-! ## Writers without room -/

theorem encode_recorder (e : Encoder n) (v : View) (sizes : CapacityCache) :
    e.encode v Recorder.new sizes =
      ((⟨(e.trace v).chunks.toArray, #[e.presize sizes]⟩, (e.trace v).failure),
        e.sizesAfter v sizes) := by
  have hnothing : (Sink.reserve Recorder.new (e.presize sizes)).chunks = #[] := rfl
  rw [encode_of_accepts Sink.infallible_recorder, Sink.after_recorder, hnothing,
    Array.empty_append]
  rfl

theorem encode_of_refusal {σ : Type} [Sink σ] {s s' : σ} {error : Error}
    (h : deliver (Sink.reserve s (e.presize sizes)) (e.trace v).chunks = (s', some error)) :
    e.encode v s sizes = ((s', some error), sizes) := by
  rw [encode_eq, Trace.into, h]

theorem toWriter_of_refusal {w w' : Writer} {written : Nat} {error : Error}
    (h : deliver (Metered.mk w 0) (e.trace v).chunks = (⟨w', written⟩, some error)) :
    e.toWriter v w sizes = ((w', some error), sizes) := by
  rw [toWriter_eq, Trace.into, h]

/-- A writer with room for `limit` bytes. If they are enough, it takes what a sink takes that refuses
nothing. Otherwise it holds the first `limit` bytes, the failure is the writer's own, and what is
counted are the calls that went through. -/
theorem encode_limited (e : Encoder n) (v : View) (sizes : CapacityCache) (limit : Nat)
    (reason : String) :
    ∃ (calls : List String) (bytes : ByteArray) (failure : Option Error) (sizes' : CapacityCache),
      e.encode v Recorder.new sizes =
        ((⟨calls.toArray, #[e.presize sizes]⟩, failure), sizes') ∧
      e.encode v ByteArray.empty sizes = ((bytes, failure), sizes') ∧
      bytes = (String.join calls).toUTF8 ∧
      (bytes.size ≤ limit →
        e.encode v (Metered.mk (.new (some limit) reason) 0) sizes =
          ((⟨⟨bytes, some (limit - bytes.size), reason⟩, bytes.size⟩, failure), sizes') ∧
        e.toWriter v (.new (some limit) reason) sizes =
          ((⟨bytes, some (limit - bytes.size), reason⟩, failure), sizes')) ∧
      (limit < bytes.size → ∃ taken, LongestFit calls limit taken ∧
        e.encode v (Metered.mk (.new (some limit) reason) 0) sizes =
          ((⟨⟨bytes.extract 0 limit, some 0, reason⟩, (String.join taken).utf8ByteSize⟩,
            some (.io reason)), sizes) ∧
        e.toWriter v (.new (some limit) reason) sizes =
          ((⟨bytes.extract 0 limit, some 0, reason⟩, some (.io reason)), sizes)) := by
  have hsize : (String.join (e.trace v).chunks).toUTF8.size =
      (String.join (e.trace v).chunks).utf8ByteSize := String.size_toByteArray
  have hbytes := (delivers_trace e v sizes).bytes .empty
  rw [ByteArray.empty_append] at hbytes
  refine ⟨_, _, _, _, encode_recorder e v sizes, hbytes, rfl, fun hfits => ?_, fun hover => ?_⟩
  · have hroom : ∀ room ∈ (Writer.new (some limit) reason).room,
        (String.join (e.trace v).chunks).utf8ByteSize ≤ room := fun room hroom => by
      rwa [← Option.some.inj hroom, ← hsize]
    have hdeliver := @deliver_of_fits _ 0 _ hroom
    rw [Writer.took_new, Nat.zero_add, ← hsize] at hdeliver
    exact ⟨encode_of_deliver hdeliver, toWriter_of_deliver hdeliver⟩
  · rw [hsize] at hover
    obtain ⟨taken, hfit, hdeliver⟩ := @deliver_of_overflow .empty _ reason 0 _ hover
    rw [ByteArray.empty_append, Nat.zero_add] at hdeliver
    exact ⟨taken, hfit, encode_of_refusal hdeliver, toWriter_of_refusal hdeliver⟩

/-- A call that ends behind its opening bracket. -/
theorem encode_limited_labelled :
    ∃ written,
      (labelledEncoder "x").encode (.object "Labelled" [.str "é", .null])
          (Metered.mk (.new (some 2) "disk full") 0) .empty =
        ((⟨⟨("f(" : String).toUTF8, some 0, "disk full"⟩, written⟩, some (.io "disk full")),
          .empty) := by
  obtain ⟨calls, bytes, failure, sizes', -, hbytes, -, -, hover⟩ :=
    encode_limited (labelledEncoder "x") (.object "Labelled" [.str "é", .null]) .empty 2 "disk full"
  have htrace : ((labelledEncoder "x").trace
      (.object "Labelled" [.str "é", .null])).failure = none :=
    failure_trace_labelled (.inr rfl) (.inl rfl)
  have hall := (delivers_trace (labelledEncoder "x") (.object "Labelled" [.str "é", .null])
    .empty).bytes .empty
  obtain ⟨document, htext⟩ : ∃ document : String,
      ((labelledEncoder "x").trace (.object "Labelled" [.str "é", .null])).text =
        "f(" ++ (document ++ ")") := by
    rw [text_trace (failure_trace.mp htrace)]
    exact ⟨_, String.append_assoc⟩
  have hsplit : bytes = ("f(" : String).toUTF8 ++ (document ++ ")").toUTF8 := by
    rw [hbytes, ByteArray.empty_append] at hall
    exact (Prod.mk.inj (Prod.mk.inj hall).1).1.trans
      ((congrArg String.toUTF8 htext).trans String.toByteArray_append)
  have hopen : ("f(" : String).toUTF8.size = 2 := String.size_toByteArray
  have hclose : (document ++ ")").toUTF8.size = document.utf8ByteSize + 1 := by
    rw [String.toUTF8, String.size_toByteArray, String.utf8ByteSize_append]
    rfl
  have hsize : 2 < bytes.size := by
    rw [hsplit, ByteArray.size_append, hopen, hclose]
    omega
  obtain ⟨taken, -, hencode, -⟩ := hover hsize
  rw [hsplit, ByteArray.extract_append_eq_left hopen.symm] at hencode
  exact ⟨_, hencode⟩

end JsonPlan.Encoder
