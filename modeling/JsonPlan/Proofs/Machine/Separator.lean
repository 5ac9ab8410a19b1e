import JsonPlan.Proofs.Layout.Visit
import JsonPlan.Proofs.Machine.Refinement
import JsonPlan.Proofs.Output.Scalar

/-!
Where the two characters come from that end a script's string literals: from the names of members,
which are escaped once for all outputs, and from nowhere else when the output is a call.
-/

namespace JsonPlan

open Json

variable {style : Style} {v : View} {s : Char}

theorem Plain.not_mem {text : String} (h : Plain text) (hs : IsSeparator s) :
    s ∉ text.toList :=
  fun hmem => hs.not_ascii (h s hmem).2.1

/-! ## Scalars -/

theorem not_mem_escaped (hjsonp : style.jsonp = true) (hs : IsSeparator s) (text : String) :
    s ∉ (String.join (escapedChunks style.jsonp text)).toList := by
  rw [hjsonp]
  exact fun hmem => not_isSeparator_of_mem_escaped hmem hs

theorem not_mem_quoted (hjsonp : style.jsonp = true) (hs : IsSeparator s) (text : String) :
    s ∉ (String.join (quotedChunks style.jsonp text)).toList := by
  have hquote : s ∉ ("\"" : String).toList := Trace.not_mem_of_ascii hs.not_ascii (by decide)
  have hinside := not_mem_escaped hjsonp hs text
  rw [join_quotedChunks, String.toList_append, String.toList_append]
  simp only [List.mem_append, not_or]
  exact ⟨⟨hquote, hinside⟩, hquote⟩

theorem not_mem_between {text : String} (h : Plain text) (hs : IsSeparator s) :
    s ∉ (String.join ["\"", text, "\""]).toList := by
  have hquote : s ∉ ("\"" : String).toList := Trace.not_mem_of_ascii hs.not_ascii (by decide)
  rw [join_between, String.toList_append, String.toList_append]
  simp only [List.mem_append, not_or]
  exact ⟨⟨hquote, h.not_mem hs⟩, hquote⟩

theorem not_mem_date (hs : IsSeparator s) (d : Calendar.Instant) (f : DateFormat) :
    s ∉ (String.join (Scalar.date d f)).toList := by
  cases f with
  | iso8601 => exact not_mem_between (Calendar.plain_iso d) hs
  | milliseconds => exact (Decimal.plain_intNumeral d.milliseconds).not_mem hs
  | seconds => exact (Decimal.plain_intNumeral d.seconds).not_mem hs
  | newtonsoft =>
      have hopen : s ∉ ("\"\\/Date(" : String).toList :=
        Trace.not_mem_of_ascii hs.not_ascii (by decide)
      have hclose : s ∉ (")\\/\"" : String).toList :=
        Trace.not_mem_of_ascii hs.not_ascii (by decide)
      have hdigits := (Decimal.plain_intNumeral d.milliseconds).not_mem hs
      rw [Decimal.intNumeral] at hdigits
      rw [Scalar.date, String.join_cons, String.join_append]
      simp only [String.toList_append, List.mem_append, not_or]
      exact ⟨hopen, hdigits, by simpa using hclose⟩
  | rfc1123 => exact not_mem_between (Calendar.plain_rfc1123 d) hs

theorem Leaf.not_mem_text (hjsonp : style.jsonp = true) (hs : IsSeparator s) (leaf : Leaf) :
    s ∉ (leaf.text style v).toList := by
  have hnull : Plain "null" := by decide
  cases v with
  | null =>
      rw [Leaf.text_null]
      exact hnull.not_mem hs
  | str text =>
      cases leaf with
      | string quoted =>
          cases quoted with
          | true => exact not_mem_quoted hjsonp hs text
          | false => exact not_mem_escaped hjsonp hs text
      | _ => simp [Leaf.text, Leaf.chunks?]
  | char c =>
      cases leaf with
      | char quoted =>
          cases quoted with
          | true => exact not_mem_quoted hjsonp hs c.toString
          | false => exact not_mem_escaped hjsonp hs c.toString
      | _ => simp [Leaf.text, Leaf.chunks?]
  | bool b =>
      cases leaf with
      | bool =>
          have hplain : Plain (String.join (Scalar.bool b)) := by cases b <;> decide
          exact hplain.not_mem hs
      | _ => simp [Leaf.text, Leaf.chunks?]
  | int i =>
      cases leaf with
      | int => exact (Decimal.plain_intNumeral i.toInt).not_mem hs
      | _ => simp [Leaf.text, Leaf.chunks?]
  | uint i =>
      cases leaf with
      | int =>
          have hplain : Plain (String.join (Scalar.uint i)) :=
            plain_join fun chunk hchunk => by
              rw [List.mem_singleton.mp hchunk]
              exact Decimal.plain_numeral _
          exact hplain.not_mem hs
      | _ => simp [Leaf.text, Leaf.chunks?]
  | guid g =>
      cases leaf with
      | guid quoted =>
          cases quoted with
          | true => exact not_mem_between g.plain_text hs
          | false =>
              have hplain : Plain (String.join (Scalar.guid g)) :=
                plain_join fun chunk hchunk => by
                  rw [List.mem_singleton.mp hchunk]
                  exact g.plain_text
              exact hplain.not_mem hs
      | _ => simp [Leaf.text, Leaf.chunks?]
  | float x =>
      cases leaf with
      | float => exact (Decimal.plain_fixed .single _).not_mem hs
      | _ => simp [Leaf.text, Leaf.chunks?]
  | double x =>
      cases leaf with
      | double => exact (Decimal.plain_fixed .double _).not_mem hs
      | _ => simp [Leaf.text, Leaf.chunks?]
  | date d =>
      cases leaf with
      | date => exact not_mem_date hs d style.dateFormat
      | _ => simp [Leaf.text, Leaf.chunks?]
  | _ => cases leaf <;> simp [Leaf.text, Leaf.chunks?]

namespace Layout

/-! ## Visited names -/

/-- A visited composite has a member whose name contains a character. -/
def Names (L : Layout) (v : View) (c : Char) : Prop :=
  ∃ owner members w, Visits L v (.composite owner members) w ∧ ∃ m ∈ members, c ∈ m.1.name.toList

theorem Names.of_visits {L K : Layout} {w : View} {c : Char} (hvisits : Visits L v K w)
    (h : Names K w c) : Names L v c := by
  obtain ⟨owner, members, x, hx, hname⟩ := h
  exact ⟨owner, members, x, hvisits.trans hx, hname⟩

/-! ## Runs -/

theorem lacks_null (hs : IsSeparator s) : (Trace.emit ["null"]).Lacks s :=
  Trace.lacks_emit_of_ascii hs.not_ascii (by decide)

theorem not_mem_quote (hs : IsSeparator s) (L : Layout) : s ∉ L.quote.toList := by
  rw [quote]
  split <;> exact Trace.not_mem_of_ascii hs.not_ascii (by decide)

theorem lacks_membersTrace {owner pending separator : String} {members : List (Place × Layout)}
    (hs : IsSeparator s) (hpending : s ∉ pending.toList) (hseparator : s ∉ separator.toList)
    (h : ∀ m ∈ members, s ∉ m.1.name.toList ∧ (memberTrace style owner v m).Lacks s) :
    (membersTrace style owner v pending separator members).Lacks s := by
  induction members generalizing pending separator with
  | nil =>
      have hclose : s ∉ ("\x7d" : String).toList :=
        Trace.not_mem_of_ascii hs.not_ascii (by decide)
      rw [membersTrace_nil]
      refine Trace.lacks_emit fun chunk hchunk => ?_
      rw [List.mem_singleton.mp hchunk, String.toList_append, List.mem_append, not_or]
      exact ⟨hpending, hclose⟩
  | cons m rest ih =>
      obtain ⟨hname, hmember⟩ := h m (by simp)
      have hcomma : s ∉ ("," : String).toList :=
        Trace.not_mem_of_ascii hs.not_ascii (by decide)
      have hrest := ih (not_mem_quote hs m.2) hcomma fun u hu => h u (by simp [hu])
      have hliteral : (Trace.emit
          [pending ++ separator ++ Json.memberName m.1.name ++ m.2.quote]).Lacks s := by
        refine Trace.lacks_emit fun chunk hchunk => ?_
        rw [List.mem_singleton.mp hchunk]
        simp only [String.toList_append, List.mem_append, not_or, mem_memberName hs]
        exact ⟨⟨⟨hpending, hseparator⟩, hname⟩, not_mem_quote hs m.2⟩
      rw [membersTrace_cons]
      exact hliteral.append (hmember.append hrest)

/-- In calls only names can bring a separator in. -/
theorem lacks_trace (hjsonp : style.jsonp = true) (hs : IsSeparator s) {L : Layout}
    (h : ¬ Names L v s) (quoted : Bool) : (trace style quoted L v).Lacks s := by
  induction L generalizing v quoted with
  | atom a =>
      rw [trace_atom, Trace.Lacks, Leaf.text_trace]
      exact Leaf.not_mem_text hjsonp hs _
  | optional inner ih =>
      rw [trace_optional, Opening.trace]
      cases hnull : v.isNull with
      | true => exact lacks_null hs
      | false =>
          exact ih (fun hname => h (hname.of_visits (.optional hnull .here))) true
  | sequence element ih =>
      rw [trace_sequence]
      cases v with
      | null => exact lacks_null hs
      | seq items =>
          refine Trace.lacks_array hs.not_ascii fun t ht => ?_
          obtain ⟨w, hw, rfl⟩ := List.mem_map.mp ht
          exact ih (fun hname => h (hname.of_visits (.item hw .here))) true
      | _ => exact Trace.lacks_fail _
  | map value ih =>
      rw [trace_map]
      cases v with
      | null => exact lacks_null hs
      | map entries =>
          refine Trace.lacks_object hs.not_ascii (fun e' _ => ?_) fun e' he' => ?_
          · exact not_mem_escaped hjsonp hs e'.1.keyText
          · obtain ⟨e, he, rfl⟩ := List.mem_map.mp he'
            exact ih (fun hname => h (hname.of_visits (.entry he .here))) true
      | _ => exact Trace.lacks_fail _
  | composite owner members ih =>
      have hopen : s ∉ ("\x7b" : String).toList :=
        Trace.not_mem_of_ascii hs.not_ascii (by decide)
      rw [trace_composite]
      refine lacks_membersTrace hs hopen (by simp) fun m hm => ⟨?_, ?_⟩
      · exact fun hname => h ⟨owner, members, v, .here, m, hm, hname⟩
      · cases v with
        | object type fields =>
            by_cases htype : type = owner
            · subst htype
              cases hw : fields[m.1.slot]? with
              | some w =>
                  rw [memberTrace_object rfl hw]
                  exact ih m hm (fun hname => h (hname.of_visits (.member hm hw .here))) false
              | none =>
                  have hdone : memberTrace style type (.object type fields) m = .done := by
                    simp [memberTrace, Opening.trace, Place.ref, hw]
                  rw [hdone]
                  exact Trace.lacks_done
            · have hfail : memberTrace style owner (.object type fields) m =
                  .fail (.shapeMismatch owner) := by
                simp [memberTrace, Opening.trace, Place.ref, htype]
              rw [hfail]
              exact Trace.lacks_fail _
        | _ => exact Trace.lacks_fail _

/-! ## Whole outputs -/

theorem mem_enclosed {left right text : String} {items : List String} {c : Char}
    (hmem : text ∈ items) (hc : c ∈ text.toList) : c ∈ (enclosed left right items).toList := by
  have hinside : c ∈ (",".intercalate items).toList := by
    cases items with
    | nil => cases hmem
    | cons first rest =>
        rw [intercalate_cons, String.toList_append, List.mem_append]
        rcases List.mem_cons.mp hmem with rfl | hmem
        · exact .inl hc
        · right
          rw [String.toList_join, List.mem_flatMap]
          exact ⟨"," ++ text, List.mem_map_of_mem hmem, by simp [hc]⟩
  simp only [enclosed, String.toList_append, List.mem_append]
  exact .inl (.inr hinside)

/-- A run that succeeds has run on every view that it visited, and its text is kept. -/
theorem mem_text_of_visits {L K : Layout} {w : View} {c : Char} (hvisits : Visits L v K w)
    (hK : K.isStringLike = false) {quoted : Bool}
    (hok : (trace style quoted L v).failure = none) :
    (trace style true K w).failure = none ∧
      (c ∈ (trace style true K w).text.toList → c ∈ (trace style quoted L v).text.toList) := by
  induction hvisits generalizing quoted with
  | here =>
      rw [trace_eq_of_not_isStringLike hK quoted] at hok ⊢
      exact ⟨hok, id⟩
  | @optional inner K v w present _ ih =>
      rw [trace_optional, Opening.trace, present] at hok ⊢
      exact ih hK hok
  | @item element K items x w mem _ ih =>
      rw [trace_sequence, Opening.trace] at hok ⊢
      have hitems := Trace.failure_array.mp hok
      obtain ⟨hx, hmem⟩ := ih hK (hitems _ (List.mem_map_of_mem mem))
      refine ⟨hx, fun hc => ?_⟩
      rw [Trace.text_array hitems]
      exact mem_enclosed (List.mem_map_of_mem (List.mem_map_of_mem mem)) (hmem hc)
  | @entry value K entries e w mem _ ih =>
      rw [trace_map, Opening.trace] at hok ⊢
      have hentries := Trace.failure_object.mp hok
      obtain ⟨hx, hmem⟩ := ih hK (hentries _ (List.mem_map_of_mem mem)).2
      refine ⟨hx, fun hc => ?_⟩
      rw [Trace.text_object hok]
      refine mem_enclosed (List.mem_map_of_mem (List.mem_map_of_mem mem)) ?_
      simp [hmem hc]
  | @member owner members m fields x w K mem read _ ih =>
      have hmembers := failure_trace_composite.mp hok
      have hmember := hmembers m mem
      rw [memberTrace_object rfl read] at hmember
      obtain ⟨hx, hmem⟩ := ih hK hmember
      refine ⟨hx, fun hc => ?_⟩
      rw [text_trace_composite hmembers]
      refine mem_enclosed (List.mem_map_of_mem mem) ?_
      simp [memberText, memberTrace_object rfl read, hmem hc]

theorem mem_text_of_names {L : Layout} (hs : IsSeparator s) (h : Names L v s)
    (hok : (trace style true L v).failure = none) : s ∈ (trace style true L v).text.toList := by
  obtain ⟨owner, members, w, hvisits, m, hm, hname⟩ := h
  obtain ⟨hcomposite, hmem⟩ := mem_text_of_visits (c := s) hvisits rfl hok
  apply hmem
  rw [text_trace_composite (failure_trace_composite.mp hcomposite)]
  refine mem_enclosed (List.mem_map_of_mem hm) ?_
  simp [memberText, (mem_memberName hs).mpr hname]

end Layout
end JsonPlan
