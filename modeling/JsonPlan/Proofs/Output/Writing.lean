import JsonPlan.Output.Writing
import JsonPlan.Proofs.Json.Pieces
import JsonPlan.Proofs.Output.Sink

/-!
What is written straight into a sink is what a trace delivers: the calls are those of the trace, and
the first one that is refused is the last one made.
-/

namespace JsonPlan

variable {σ : Type}

namespace Writing

theorem into_append (a b : Writing σ) (s : σ) :
    (a ++ b).into s =
      match a.into s with
      | (s', none) => b.into s'
      | (s', some e) => (s', some e) := rfl

theorem append_done (w : Writing σ) : w ++ done = w := by
  ext s : 2
  rw [into_append]
  rcases w.into s with ⟨s', _ | e⟩ <;> rfl

theorem append_assoc (a b c : Writing σ) : a ++ b ++ c = a ++ (b ++ c) := by
  ext s : 2
  simp only [into_append]
  rcases a.into s with ⟨s', _ | e⟩ <;> rfl

end Writing

variable [Sink σ]

/-! ## Traces as uses of sinks -/

/-- Hands over a trace. -/
def Trace.writing (t : Trace) : Writing σ := ⟨fun s => t.into s⟩

theorem deliver_append (s : σ) (as bs : List String) :
    deliver s (as ++ bs) =
      match deliver s as with
      | (s', none) => deliver s' bs
      | (s', some e) => (s', some e) := by
  induction as generalizing s with
  | nil => rfl
  | cons a as ih =>
      rw [List.cons_append, deliver, deliver]
      rcases Sink.write s a with ⟨s', _ | e⟩
      · exact ih s'
      · rfl

namespace Trace

theorem into_writing_emit (chunks : List String) (s : σ) :
    ((emit chunks).writing : Writing σ).into s = deliver s chunks := by
  change (emit chunks).into s = deliver s chunks
  rw [into, emit]
  rcases deliver s chunks with ⟨s', _ | e⟩ <;> rfl

theorem writing_append (a b : Trace) :
    ((a ++ b).writing : Writing σ) = a.writing ++ b.writing := by
  ext s : 2
  rcases a with ⟨as, _ | e⟩
  · change (Trace.mk (as ++ b.chunks) b.failure).into s = _
    rw [into, deliver_append, Writing.into_append]
    change _ = match (Trace.mk as none).into s with
      | (s', none) => b.into s'
      | (s', some e) => (s', some e)
    rw [into]
    rcases deliver s as with ⟨s', _ | e⟩ <;> rfl
  · change (Trace.mk as (some e)).into s = match (Trace.mk as (some e)).into s with
      | (s', none) => b.into s'
      | (s', some e) => (s', some e)
    rw [into]
    rcases deliver s as with ⟨s', _ | e'⟩ <;> rfl

theorem writing_done : (done.writing : Writing σ) = .done := rfl

theorem writing_emit_nil : ((emit []).writing : Writing σ) = .done := rfl

theorem writing_emit_cons (chunk : String) (rest : List String) :
    ((emit (chunk :: rest)).writing : Writing σ) = .text chunk ++ (emit rest).writing := by
  have hchunk : ((emit [chunk]).writing : Writing σ) = .text chunk := by
    ext s : 2
    change (emit [chunk]).into s = Sink.write s chunk
    rw [into, emit, deliver]
    rcases Sink.write s chunk with ⟨s', _ | e⟩ <;> rfl
  rw [← hchunk, ← writing_append, emit_append_emit, List.singleton_append]

theorem writing_emit_append (as bs : List String) :
    ((emit (as ++ bs)).writing : Writing σ) = (emit as).writing ++ (emit bs).writing := by
  rw [← emit_append_emit, writing_append]

theorem writing_emit_singleton (chunk : String) :
    ((emit [chunk]).writing : Writing σ) = .text chunk := by
  rw [writing_emit_cons, writing_emit_nil, Writing.append_done]

end Trace

namespace Writing

open Trace Decimal Binary

theorem text_toString (c : Char) : (text c.toString : Writing σ) = char c := by
  ext s : 2
  exact (Sink.writeChar_eq s c).symm

theorem text_quote : (text "\"" : Writing σ) = char '"' := text_toString '"'

/-! ## Formatters -/

/-- Whatever the formatter learns of a refusal, its reason comes out. -/
theorem write_formatSink (f : FormatSink σ) (pieces : List String) :
    f.write pieces =
      match deliver f.sink pieces with
      | (s, none) => (⟨s, f.refusal⟩, true)
      | (s, some e) => (⟨s, some e⟩, false) := by
  induction pieces generalizing f with
  | nil => rfl
  | cons piece rest ih =>
      rw [FormatSink.write, deliver]
      rcases Sink.write f.sink piece with ⟨s, _ | e⟩
      · exact ih ⟨s, f.refusal⟩
      · rfl

theorem display_eq (pieces : List String) :
    (display pieces : Writing σ) = (emit pieces).writing := by
  ext s : 2
  simp only [display, Trace.writing, write_formatSink, Trace.into, emit]
  rcases deliver s pieces with ⟨s', _ | e⟩ <;> rfl

/-! ## Strings -/

theorem escape_eq (jsonp : Bool) (c : Char) :
    ∀ chunks ∈ Json.escape? jsonp c, (escape c chunks : Writing σ) = (emit chunks).writing := by
  fun_cases Json.escape? jsonp c with
  | case1 | case2 | case3 | case4 | case5 | case6 | case7 | case8 | case9 =>
      rintro _ ⟨⟩
      exact (writing_emit_singleton _).symm
  | case10 =>
      rintro _ ⟨⟩
      rw [writing_emit_cons, writing_emit_cons, writing_emit_singleton, text_toString,
        text_toString, ← append_assoc]
      rfl
  | case11 => rintro _ ⟨⟩

theorem piece_eq {jsonp : Bool} {s : String} {p : Json.Piece} (h : p.Covers jsonp s) :
    (piece s p : Writing σ) = (emit (p.chunks s)).writing := by
  cases h with
  | run split some plain => exact (writing_emit_singleton _).symm
  | escape mem escaped => exact escape_eq jsonp _ _ escaped

theorem each_eq {α : Type} {write : α → Writing σ} {chunks : α → List String} {as : List α}
    (h : ∀ a ∈ as, write a = (emit (chunks a)).writing) :
    each write as = (emit (as.flatMap chunks)).writing := by
  induction as with
  | nil => exact writing_emit_nil.symm
  | cons a as ih =>
      rw [each, h a List.mem_cons_self, ih fun b hb => h b (List.mem_cons_of_mem a hb),
        List.flatMap_cons, writing_emit_append]

theorem escaped_eq (jsonp : Bool) (s : String) :
    (escaped jsonp s : Writing σ) = (emit (Json.escapedChunks jsonp s)).writing :=
  each_eq fun p hp => piece_eq (Json.covers_pieces jsonp s p hp)

theorem quoted_eq (jsonp : Bool) (s : String) :
    (quoted jsonp s : Writing σ) = (emit (Json.quotedChunks jsonp s)).writing := by
  rw [quoted, Json.quotedChunks, writing_emit_cons, writing_emit_append, writing_emit_singleton,
    text_quote, escaped_eq, append_assoc]

/-! ## Numbers -/

theorem int_eq (v : Int) : (int v : Writing σ) = (emit (intChunks v)).writing := by
  have hminus : (text "-" : Writing σ) = char '-' := text_toString '-'
  rw [int, intChunks]
  split
  · rw [writing_emit_cons, writing_emit_singleton, hminus]
  · rw [writing_emit_singleton]

theorem each_char_replicate (c : Char) (k : Nat) :
    (each char (List.replicate k c) : Writing σ) =
      (emit (List.replicate k c.toString)).writing := by
  have hchar (a : Char) : (char a : Writing σ) = (emit [a.toString]).writing := by
    rw [writing_emit_singleton, text_toString]
  rw [each_eq fun a _ => hchar a, List.flatMap_def, List.map_replicate,
    List.flatten_replicate_singleton]

theorem split_eq (negative : Bool) (s : Split) :
    (split negative s : Writing σ) = (emit (s.chunks negative)).writing := by
  have hsign : ((if negative then char '-' else done) : Writing σ) =
      (emit (if negative then ["-"] else [])).writing := by
    cases negative with
    | false => rfl
    | true => exact (text_toString '-').symm.trans (writing_emit_singleton "-").symm
  have hpoint : (text "." : Writing σ) = char '.' := text_toString '.'
  have hzeros : (each char (List.replicate (s.scale - digitCount s.fraction) '0') : Writing σ) =
      (emit (List.replicate (s.scale - digitCount s.fraction) "0")).writing :=
    each_char_replicate '0' _
  rw [split, Split.chunks]
  by_cases hzero : s.whole = 0 ∧ s.fraction = 0
  · rw [if_pos hzero, if_pos hzero, writing_emit_singleton]
  · rw [if_neg hzero, if_neg hzero, writing_emit_append, writing_emit_cons, hsign, append_assoc]
    by_cases hwhole : s.fraction = 0
    · rw [if_pos hwhole, if_pos hwhole, writing_emit_nil]
    · rw [if_neg hwhole, if_neg hwhole, writing_emit_cons, writing_emit_append, hpoint, hzeros,
        writing_emit_singleton, append_assoc (char '.')]

theorem fixed_eq (p : Precision) (d : Datum) :
    (fixed p d : Writing σ) = (emit (fixedChunks p d)).writing := by
  cases d with
  | nan => exact display_eq _
  | infinite negative => exact display_eq _
  | finite negative m q =>
      rw [fixed, fixedChunks]
      split
      · exact (writing_emit_singleton "0").symm
      · split
        · exact display_eq _
        · exact split_eq negative _

theorem fixed_into_empty (p : Precision) (d : Datum) :
    (fixed p d).into "" = (Decimal.fixed p d, none) := by
  rw [fixed_eq]
  exact Trace.into_empty _

/-! ## Identifiers and dates -/

theorem between_quotes (inside : Writing σ) (chunks : List String)
    (h : inside = (emit chunks).writing) :
    char '"' ++ inside ++ char '"' = (emit ("\"" :: (chunks ++ ["\""]))).writing := by
  rw [h, writing_emit_cons, writing_emit_append, writing_emit_singleton, text_quote, append_assoc]

theorem quotedGuid_eq (g : Guid) :
    (quotedGuid g : Writing σ) = (emit (Scalar.quotedGuid g)).writing :=
  between_quotes _ [g.text] (writing_emit_singleton _).symm

theorem date_eq (d : Calendar.Instant) (f : DateFormat) :
    (date d f : Writing σ) = (emit (Scalar.date d f)).writing := by
  cases f with
  | iso8601 => exact between_quotes _ [d.iso] (display_eq _)
  | milliseconds => exact int_eq _
  | seconds => exact int_eq _
  | newtonsoft =>
      rw [date, Scalar.date, writing_emit_cons, writing_emit_append, writing_emit_singleton,
        int_eq, append_assoc]
  | rfc1123 => exact between_quotes _ [d.rfc1123] (display_eq _)

end Writing
end JsonPlan
