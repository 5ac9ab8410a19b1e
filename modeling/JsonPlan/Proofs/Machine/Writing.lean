import JsonPlan.Encoder
import JsonPlan.Proofs.Output.Writing

/-! Running into a sink is delivering the trace of the run. -/

namespace JsonPlan

variable {σ : Type} [Sink σ] {style : Style}

open Trace

/-! ## Scalars -/

theorem Leaf.writing?_eq (style : Style) (leaf : Leaf) (v : View) :
    (leaf.writing? style v : Option (Writing σ)) =
      (leaf.chunks? style v).map fun chunks => (emit chunks).writing := by
  fun_cases Leaf.chunks? style leaf v with
  | case1 => simp [Leaf.writing?, writing_emit_singleton]
  | case2 s => simp [Leaf.writing?, Writing.quoted_eq]
  | case3 s => simp [Leaf.writing?, Writing.escaped_eq]
  | case4 c => simp [Leaf.writing?, Writing.quoted_eq]
  | case5 c => simp [Leaf.writing?, Writing.escaped_eq]
  | case6 v => simp [Leaf.writing?, Writing.int_eq, Scalar.int]
  | case7 v => simp [Leaf.writing?, writing_emit_singleton, Scalar.uint]
  | case8 b => simp [Leaf.writing?, writing_emit_singleton, Scalar.bool]
  | case9 g => simp [Leaf.writing?, Writing.quotedGuid_eq]
  | case10 g => simp [Leaf.writing?, writing_emit_singleton, Scalar.guid]
  | case11 v => simp [Leaf.writing?, Writing.fixed_eq, Scalar.float]
  | case12 v => simp [Leaf.writing?, Writing.fixed_eq, Scalar.double]
  | case13 d => simp [Leaf.writing?, Writing.date_eq]
  | case14 => simp [Leaf.writing?]

theorem Leaf.writing_eq (style : Style) (leaf : Leaf) (v : View) :
    (leaf.writing style v : Writing σ) = (leaf.trace style v).writing := by
  rw [Leaf.writing, Leaf.trace, Leaf.writing?_eq]
  cases leaf.chunks? style v <;> rfl

/-! ## Lists and maps -/

namespace Writing

theorem commaLed_eq (items : List Trace) :
    (commaLed (items.map Trace.writing) : Writing σ) = (Trace.commaLed items).writing := by
  have hcomma : (text "," : Writing σ) = char ',' := text_toString ','
  induction items with
  | nil => rfl
  | cons item rest ih =>
      rw [List.map_cons, commaLed, Trace.commaLed, ih, writing_append, writing_append,
        writing_emit_singleton, hcomma]

theorem array_eq (items : List Trace) :
    (array (items.map Trace.writing) : Writing σ) = (Trace.array items).writing := by
  have hopen : (text "[" : Writing σ) = char '[' := text_toString '['
  have hclose : (text "]" : Writing σ) = char ']' := text_toString ']'
  have hitems : (separated (items.map Trace.writing) : Writing σ) =
      (Trace.separated items).writing := by
    cases items with
    | nil => rfl
    | cons item rest => rw [List.map_cons, separated, Trace.separated, commaLed_eq, writing_append]
  rw [array, Trace.array, hitems, writing_append, writing_append, writing_emit_singleton,
    writing_emit_singleton, hopen, hclose]

/-- Items are written as their traces are, if each of them is. -/
theorem array_map_eq {into : View → Writing σ} {trace : View → Trace} {items : List View}
    (h : ∀ item ∈ items, into item = (trace item).writing) :
    array (items.map into) = (Trace.array (items.map trace)).writing := by
  rw [← array_eq, List.map_map]
  exact congrArg array (List.map_congr_left h)

theorem entry_eq {lead : Writing σ} {chunks : List String} (hlead : lead = (emit chunks).writing)
    (key : View) (value : Trace) :
    entry style lead (key, value.writing) = (Trace.entry style chunks (key, value)).writing := by
  have hcolon : (text ":" : Writing σ) = char ':' := text_toString ':'
  cases key with
  | str key =>
      rw [entry, Trace.entry, writing_append, writing_emit_append, writing_emit_append,
        writing_emit_singleton, hlead, quoted_eq, hcolon]
  | _ => rfl

variable (style) in
theorem commaLedEntries_eq (entries : List (View × Trace)) :
    (commaLedEntries style (entries.map fun e => (e.1, e.2.writing)) : Writing σ) =
      (Trace.commaLedEntries style entries).writing := by
  have hcomma : (char ',' : Writing σ) = (emit [","]).writing :=
    (text_toString ',').symm.trans (writing_emit_singleton ",").symm
  induction entries with
  | nil => rfl
  | cons e rest ih =>
      rw [List.map_cons, commaLedEntries, Trace.commaLedEntries, entry_eq hcomma, ih,
        writing_append]

variable (style) in
theorem object_eq (entries : List (View × Trace)) :
    (object style (entries.map fun e => (e.1, e.2.writing)) : Writing σ) =
      (Trace.object style entries).writing := by
  have hopen : (text "\x7b" : Writing σ) = char '\x7b' := text_toString '\x7b'
  have hclose : (text "\x7d" : Writing σ) = char '\x7d' := text_toString '\x7d'
  cases entries with
  | nil =>
      rw [List.map_nil, object, Trace.object, writing_append, writing_append,
        writing_emit_singleton, writing_emit_singleton, hopen, hclose, writing_done]
  | cons e rest =>
      have hentry : (entry style done (e.1, e.2.writing) : Writing σ) =
          (Trace.entry style [] e).writing := entry_eq writing_emit_nil.symm e.1 e.2
      rw [List.map_cons, object, Trace.object, writing_append, writing_append, writing_append,
        writing_emit_singleton, writing_emit_singleton, hopen, hclose, commaLedEntries_eq, hentry]

theorem object_map_eq {into : View → Writing σ} {trace : View → Trace}
    {entries : List (View × View)} (h : ∀ e ∈ entries, into e.2 = (trace e.2).writing) :
    object style (entries.map fun e => (e.1, into e.2)) =
      (Trace.object style (entries.map fun e => (e.1, trace e.2))).writing := by
  rw [← object_eq, List.map_map]
  exact congrArg (object style) (List.map_congr_left fun e he => Prod.ext rfl (h e he))

end Writing

/-! ## Programs -/

/-- A run makes the calls of its trace, up to the first one that is refused. -/
theorem runInto_eq (style : Style) (steps : List Step) (v : View) :
    (runInto style steps v : Writing σ) = (run style steps v).writing := by
  -- As the runs do, the proof recurs on the view where a region enters it, and on the steps otherwise.
  match steps with
  | [] => rw [runInto, run, writing_done]
  | ⟨.literal text, _⟩ :: rest =>
      rw [runInto, run, writing_append, writing_emit_singleton, runInto_eq style rest v]
  | ⟨.leave _, _⟩ :: rest => rw [runInto, run, runInto_eq style rest v]
  | ⟨.write leaf, _⟩ :: rest =>
      rw [runInto, run, writing_append, Leaf.writing_eq, runInto_eq style rest v]
  | ⟨.enter .nullable, span⟩ :: rest =>
      rw [runInto, run]
      split
      · rw [writing_append, writing_emit_singleton, runInto_eq style (rest.drop span) v]
      · exact runInto_eq style rest v
  | ⟨.enter .list, span⟩ :: rest =>
      have hrest : (runInto style (rest.drop span) v : Writing σ) = _ :=
        runInto_eq style (rest.drop span) v
      rw [runInto.eq_def, run.eq_def]
      simp only [writing_append, hrest]
      congr 1
      cases v with
      | null => exact (writing_emit_singleton _).symm
      | seq items => exact Writing.array_map_eq fun item hitem => runInto_eq style _ item
      | _ => rfl
  | ⟨.enter .map, span⟩ :: rest =>
      have hrest : (runInto style (rest.drop span) v : Writing σ) = _ :=
        runInto_eq style (rest.drop span) v
      rw [runInto.eq_def, run.eq_def]
      simp only [writing_append, hrest]
      congr 1
      cases v with
      | null => exact (writing_emit_singleton _).symm
      | map entries => exact Writing.object_map_eq fun e he => runInto_eq style _ e.2
      | _ => rfl
  | ⟨.enter (.member m), span⟩ :: rest =>
      have hrest : (runInto style (rest.drop span) v : Writing σ) = _ :=
        runInto_eq style (rest.drop span) v
      rw [runInto.eq_def, run.eq_def]
      simp only [writing_append, hrest]
      congr 1
      cases v with
      | object type fields =>
          by_cases howner : type = m.owner
          · simp only [if_pos howner]
            cases hfield : fields[m.slot]? with
            | none => rfl
            | some w => exact runInto_eq style _ w
          · simp only [if_neg howner]
            rfl
      | _ => rfl
termination_by (v, steps.length)
decreasing_by
  all_goals first
    | exact .left _ _ (View.sizeOf_lt_seq (by assumption))
    | exact .left _ _ (View.sizeOf_lt_map (by assumption))
    | exact .left _ _ (View.sizeOf_lt_object (by assumption))
    | exact .right _ (by simp only [List.length_cons, List.length_drop]; omega)

theorem Encoder.write_eq {n : Nat} (e : Encoder n) (v : View) :
    (e.write v : Writing σ) = (e.trace v).writing := by
  have hopen : (Writing.text "(" : Writing σ) = .char '(' := Writing.text_toString '('
  have hclose : (Writing.text ")" : Writing σ) = .char ')' := Writing.text_toString ')'
  rw [write, trace]
  cases e.options.jsonpCallback with
  | none => exact runInto_eq _ _ _
  | some callback =>
      simp only [writing_append, writing_emit_cons, writing_emit_nil, Writing.append_done,
        runInto_eq, hopen, hclose]

end JsonPlan
