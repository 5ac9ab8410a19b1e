import JsonPlan.Engine.History
import JsonPlan.Proofs.Entry

/-!
Encodings to any destination. One that does not fail has delivered the document, and records no other
size than that of the document.
-/

namespace JsonPlan

/-- `text` is what arrives at the destination of an encoding. -/
def Destination.Receives {n : Nat} (e : Encoder n) (v : View) (sizes : CapacityCache)
    (text : String) : Destination → Prop
  | .text => (e.toText v sizes).1 = .ok text
  | @Destination.sink _ _ s =>
    ∃ chunks, String.join chunks = text ∧
      (e.encode v s sizes).1.1 = Sink.after (Sink.reserve s (e.presize sizes)) chunks
  | .writer w => (e.toWriter v w sizes).1.1.held = w.held ++ text.toUTF8

/-- A writer that took chunks without a refusal holds them all. -/
theorem held_of_deliver {w w' : Writer} {written written' : Nat} {chunks : List String}
    (h : deliver (Metered.mk w written) chunks = (⟨w', written'⟩, none)) :
    w'.held = w.held ++ (String.join chunks).toUTF8 := by
  have hfits : ∀ room ∈ w.room, (String.join chunks).utf8ByteSize ≤ room := by
    rcases w with ⟨held, room?, reason⟩
    rintro room rfl
    -- Without room for all of them, one would have been refused.
    by_contra hover
    obtain ⟨taken, -, hdeliver⟩ :=
      @deliver_of_overflow held room reason written chunks (Nat.not_le.mp hover)
    rw [h] at hdeliver
    cases (Prod.mk.inj hdeliver).2
  rw [deliver_of_fits hfits] at h
  obtain ⟨hwriter, -⟩ := Metered.mk.inj (Prod.mk.inj h).1
  rw [← hwriter, Writer.took]

namespace Encoder

variable {n : Nat} {e : Encoder n} {v : View} {sizes : CapacityCache} {d : Destination}

/-- Whatever the sink does, it is announced the remembered size and is given the document. -/
theorem encode_fst {σ : Type} [Sink σ] (e : Encoder n) (v : View) (s : σ) (sizes : CapacityCache) :
    (e.encode v s sizes).1 = (e.trace v).into (Sink.reserve s (e.presize sizes)) := by
  rw [encode_eq]
  rcases (e.trace v).into (Sink.reserve s (e.presize sizes)) with ⟨s', _ | error⟩ <;> rfl

/-- The sizes after an encoding. -/
theorem send_snd (e : Encoder n) (v : View) (sizes : CapacityCache) (d : Destination) :
    (e.send v sizes d).2 = match (e.send v sizes d).1 with
      | .ok () => e.record (e.trace v).text.utf8ByteSize sizes
      | .error _ => sizes := by
  cases d with
  | text =>
      simp only [send, toText_eq, sizesAfter]
      cases (e.trace v).failure <;> rfl
  | sink s =>
      simp only [send, encode_eq]
      rcases (e.trace v).into (Sink.reserve s (e.presize sizes)) with ⟨s', _ | error⟩ <;> rfl
  | writer w =>
      simp only [send, toWriter_eq]
      rcases (e.trace v).into (Metered.mk w 0) with ⟨m, _ | error⟩ <;> rfl

/-- An encoding succeeds only if the document does, and then all of it has arrived. -/
theorem send_eq_ok (h : (e.send v sizes d).1 = .ok ()) :
    (e.trace v).failure = none ∧ d.Receives e v sizes (e.trace v).text := by
  cases d with
  | text =>
      cases hout : (e.toText v sizes).1 with
      | ok out =>
          obtain ⟨hfailure, htext⟩ := toText_eq_ok hout
          exact ⟨hfailure, hout.trans (congrArg Except.ok htext.symm)⟩
      | error error =>
          simp only [send, hout] at h
          cases h
  | sink s =>
      have hok : (e.encode v s sizes).1.2 = none := by
        cases hfailure : (e.encode v s sizes).1.2 with
        | none => rfl
        | some error =>
            simp only [send, hfailure] at h
            cases h
      obtain ⟨hfailure, hsink⟩ := encode_eq_ok hok
      exact ⟨hfailure, _, rfl, hsink⟩
  | writer w =>
      simp only [send, toWriter_eq] at h
      rw [Destination.Receives, toWriter_eq]
      rcases hinto : (e.trace v).into (Metered.mk w 0) with ⟨m, _ | error⟩
      · obtain ⟨hfailure, hdeliver⟩ := Trace.into_eq_ok hinto
        exact ⟨hfailure, held_of_deliver hdeliver⟩
      · rw [hinto] at h
        cases h

theorem receives_of_send (h : (e.send v sizes d).1 = .ok ()) :
    d.Receives e v sizes (e.trace v).text :=
  (send_eq_ok h).2

end Encoder
end JsonPlan
