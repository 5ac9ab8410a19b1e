import JsonPlan.Output.Sink

/-! What arrives at a sink. -/

namespace JsonPlan

namespace Sink

/-- The sinks of a type refuse no chunk. -/
def Infallible (σ : Type) [Sink σ] : Prop := ∀ (s : σ) (chunk : String), (write s chunk).2 = none

/-- A sink after chunks, whether it took them or not. -/
def after {σ : Type} [Sink σ] (s : σ) (chunks : List String) : σ :=
  chunks.foldl (fun s chunk => (write s chunk).1) s

/-- The sinks of a type refuse nothing, and `held` shows the bytes of what they have taken. -/
structure Appends {σ : Type} [Sink σ] (held : σ → ByteArray) : Prop where
  accepts : Infallible σ
  write (s : σ) (chunk : String) : held (write s chunk).1 = held s ++ chunk.toUTF8
  reserve (s : σ) (size : Nat) : held (reserve s size) = held s

/-- The inner sink takes what the outer one is given, and decides what is refused. -/
def Forwards {τ σ : Type} [Sink τ] [Sink σ] (inner : τ → σ) : Prop :=
  ∀ (s : τ) (chunk : String), write (inner s) chunk = (inner (write s chunk).1, (write s chunk).2)

/-! ## Texts, bytes and recorders -/

theorem infallible_string : Infallible String := fun _ _ => rfl

theorem after_string (s : String) (chunks : List String) :
    after s chunks = s ++ String.join chunks := by
  induction chunks generalizing s with
  | nil => simp [after]
  | cons chunk rest ih =>
      rw [String.join_cons, ← String.append_assoc]
      exact ih (s ++ chunk)

theorem infallible_recorder : Infallible Recorder := fun _ _ => rfl

theorem after_recorder (r : Recorder) (chunks : List String) :
    after r chunks = ⟨r.chunks ++ chunks.toArray, r.reserved⟩ := by
  induction chunks generalizing r with
  | nil => simp [after]
  | cons chunk rest ih =>
      have hrest := ih (write r chunk).1
      simp only [write, Array.push_eq_append, Array.append_assoc, List.singleton_append,
        List.append_toArray] at hrest
      exact hrest

theorem toUTF8_join_cons (chunk : String) (rest : List String) :
    (String.join (chunk :: rest)).toUTF8 = chunk.toUTF8 ++ (String.join rest).toUTF8 := by
  rw [String.join_cons]
  exact String.toByteArray_append

theorem Appends.after {σ : Type} [Sink σ] {held : σ → ByteArray} (h : Appends held) (s : σ)
    (chunks : List String) : held (after s chunks) = held s ++ (String.join chunks).toUTF8 := by
  induction chunks generalizing s with
  | nil => exact ByteArray.append_empty.symm
  | cons chunk rest ih =>
      rw [toUTF8_join_cons, ← ByteArray.append_assoc, ← h.write s chunk]
      exact ih (Sink.write s chunk).1

theorem appends_bytes : Appends (id : ByteArray → ByteArray) where
  accepts _ _ := rfl
  write _ _ := rfl
  reserve _ _ := rfl

theorem appends_string : Appends String.toUTF8 where
  accepts := infallible_string
  write _ _ := String.toByteArray_append
  reserve _ _ := rfl

end Sink

/-! ## Delivery -/

theorem deliver_of_infallible {σ : Type} [Sink σ] (h : Sink.Infallible σ) (s : σ)
    (chunks : List String) : deliver s chunks = (Sink.after s chunks, none) := by
  induction chunks generalizing s with
  | nil => rfl
  | cons chunk rest ih =>
      have hwrite : Sink.write s chunk = ((Sink.write s chunk).1, none) :=
        Prod.ext rfl (h s chunk)
      rw [deliver, hwrite]
      exact ih _

theorem Trace.into_of_infallible {σ : Type} [Sink σ] (h : Sink.Infallible σ) (s : σ)
    (t : Trace) : t.into s = (Sink.after s t.chunks, t.failure) := by
  rw [into, deliver_of_infallible h]

theorem Trace.into_empty (t : Trace) : t.into "" = (t.text, t.failure) := by
  rw [into_of_infallible Sink.infallible_string, Sink.after_string, String.empty_append, text]

variable {σ τ : Type} [Sink σ] [Sink τ]

/-- A delivery without a refusal hands over every chunk. -/
theorem deliver_eq_ok {s s' : σ} {chunks : List String} (h : deliver s chunks = (s', none)) :
    s' = Sink.after s chunks := by
  induction chunks generalizing s with
  | nil => exact (Prod.mk.inj h).1.symm
  | cons chunk rest ih =>
      rw [deliver] at h
      split at h
      · rename_i s'' hwrite
        have hnext : (Sink.write s chunk).1 = s'' := by rw [hwrite]
        rw [ih h, ← hnext]
        rfl
      · cases (Prod.mk.inj h).2

theorem Trace.into_eq_ok {s s' : σ} {t : Trace} (h : t.into s = (s', none)) :
    t.failure = none ∧ deliver s t.chunks = (s', none) := by
  rw [into] at h
  split at h
  · rename_i s'' hdeliver
    obtain ⟨rfl, hfailure⟩ := Prod.mk.inj h
    exact ⟨hfailure, hdeliver⟩
  · cases (Prod.mk.inj h).2

/-! ## Sinks around sinks -/

theorem deliver_of_forwards {inner : τ → σ} (h : Sink.Forwards inner) (s : τ)
    (chunks : List String) :
    deliver (inner s) chunks = (inner (deliver s chunks).1, (deliver s chunks).2) := by
  induction chunks generalizing s with
  | nil => rfl
  | cons chunk rest ih =>
      rw [deliver, deliver, h s chunk]
      rcases Sink.write s chunk with ⟨s', _ | error⟩
      · exact ih s'
      · rfl

theorem Trace.into_of_forwards {inner : τ → σ} (h : Sink.Forwards inner) (s : τ) (t : Trace) :
    t.into (inner s) = (inner (t.into s).1, (t.into s).2) := by
  rw [into, into, deliver_of_forwards h]
  rcases deliver s t.chunks with ⟨s', _ | error⟩ <;> rfl

/-- Counting changes neither what arrives nor what is refused. -/
theorem Sink.forwards_counted : Forwards (Counted.inner : Counted σ → σ) := by
  intro s chunk
  rcases hwrite : write s.inner chunk with ⟨inner, _ | error⟩ <;> simp [write, hwrite]

theorem Sink.forwards_borrowed : Forwards (Borrowed.inner : Borrowed σ → σ) :=
  fun _ _ => rfl

theorem Sink.Appends.borrowed {held : σ → ByteArray} (h : Appends held) :
    Appends fun s : Borrowed σ => held s.inner where
  accepts s := h.accepts s.inner
  write s := h.write s.inner
  reserve s := h.reserve s.inner

/-! ## Counting -/

/-- A measure that grows with every chunk that is taken has grown by the whole text. -/
theorem deliver_size {size : σ → Nat}
    (h : ∀ s s' chunk, Sink.write s chunk = (s', none) → size s' = size s + chunk.utf8ByteSize)
    {s s' : σ} {chunks : List String} (hok : deliver s chunks = (s', none)) :
    size s' = size s + (String.join chunks).utf8ByteSize := by
  induction chunks generalizing s with
  | nil =>
      obtain ⟨rfl, -⟩ := Prod.mk.inj hok
      rfl
  | cons chunk rest ih =>
      rw [deliver] at hok
      split at hok
      · rename_i s'' hwrite
        rw [ih hok, h s s'' chunk hwrite, String.join_cons, String.utf8ByteSize_append,
          Nat.add_assoc]
      · cases (Prod.mk.inj hok).2

theorem Trace.into_size {size : σ → Nat}
    (h : ∀ s s' chunk, Sink.write s chunk = (s', none) → size s' = size s + chunk.utf8ByteSize)
    {s s' : σ} {t : Trace} (hok : t.into s = (s', none)) :
    size s' = size s + t.text.utf8ByteSize :=
  deliver_size h (into_eq_ok hok).2

theorem Sink.size_counted (s s' : Counted σ) (chunk : String)
    (h : write s chunk = (s', none)) : s'.written = s.written + chunk.utf8ByteSize := by
  rcases hwrite : write s.inner chunk with ⟨inner, _ | error⟩
  · simp only [write, hwrite] at h
    rw [← (Prod.mk.inj h).1]
  · simp only [write, hwrite] at h
    cases (Prod.mk.inj h).2

theorem Sink.size_metered (m m' : Metered) (chunk : String)
    (h : write m chunk = (m', none)) : m'.written = m.written + chunk.utf8ByteSize := by
  rcases hwrite : m.writer.write chunk.toUTF8 with ⟨w, _ | error⟩
  · simp only [write, hwrite] at h
    rw [← (Prod.mk.inj h).1]
  · simp only [write, hwrite] at h
    cases (Prod.mk.inj h).2

end JsonPlan
