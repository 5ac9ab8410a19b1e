import JsonPlan.Layout.Text

/-! Texts and failures of traces, from those of their parts. -/

namespace JsonPlan

theorem intercalate_cons (separator first : String) (rest : List String) :
    separator.intercalate (first :: rest) = first ++ String.join (rest.map (separator ++ ·)) := by
  induction rest generalizing first with
  | nil => simp
  | cons next rest ih =>
      rw [String.intercalate_cons_cons, ih, List.map_cons, String.join_cons]
      simp only [String.append_assoc]

namespace Trace

@[simp] theorem text_done : done.text = "" := rfl

@[simp] theorem failure_done : done.failure = none := rfl

@[simp] theorem text_emit (chunks : List String) : (emit chunks).text = String.join chunks := rfl

@[simp] theorem failure_emit (chunks : List String) : (emit chunks).failure = none := rfl

@[simp] theorem text_fail (e : Error) : (fail e).text = "" := rfl

@[simp] theorem failure_fail (e : Error) : (fail e).failure = some e := rfl

@[simp] theorem failure_append {a b : Trace} :
    (a ++ b).failure = none ↔ a.failure = none ∧ b.failure = none := by
  rw [append_def, andThen]
  split <;> simp_all

theorem text_append {a b : Trace} (h : a.failure = none) : (a ++ b).text = a.text ++ b.text := by
  rw [append_def, andThen, h, text, text, text, ← String.toList_inj]
  simp [String.toList_join]

theorem mem_text_append {a b : Trace} {c : Char} (h : c ∈ (a ++ b).text.toList) :
    c ∈ a.text.toList ∨ c ∈ b.text.toList := by
  cases ha : a.failure with
  | none =>
      rw [text_append ha, String.toList_append] at h
      exact List.mem_append.mp h
  | some e =>
      left
      simpa [append_def, andThen, ha] using h

/-! ## Separators and brackets -/

theorem failure_commaLed {ts : List Trace} :
    (commaLed ts).failure = none ↔ ∀ t ∈ ts, t.failure = none := by
  induction ts with
  | nil => simp [commaLed]
  | cons t ts ih => simp [commaLed, ih]

theorem text_commaLed {ts : List Trace} (h : ∀ t ∈ ts, t.failure = none) :
    (commaLed ts).text = String.join (ts.map fun t => "," ++ t.text) := by
  induction ts with
  | nil => rfl
  | cons t ts ih =>
      have ht := h t (by simp)
      rw [commaLed, text_append rfl, text_append ht, ih fun u hu => h u (by simp [hu]),
        List.map_cons, String.join_cons]
      simp [String.append_assoc]

theorem failure_separated {ts : List Trace} :
    (separated ts).failure = none ↔ ∀ t ∈ ts, t.failure = none := by
  cases ts with
  | nil => simp [separated]
  | cons t ts => simp [separated, failure_commaLed]

theorem text_separated {ts : List Trace} (h : ∀ t ∈ ts, t.failure = none) :
    (separated ts).text = ",".intercalate (ts.map text) := by
  cases ts with
  | nil => rfl
  | cons t ts =>
      rw [separated, text_append (h t (by simp)), text_commaLed fun u hu => h u (by simp [hu]),
        List.map_cons, intercalate_cons, List.map_map]
      rfl

theorem failure_array {items : List Trace} :
    (array items).failure = none ↔ ∀ t ∈ items, t.failure = none := by
  simp [array, failure_separated]

theorem text_array {items : List Trace} (h : ∀ t ∈ items, t.failure = none) :
    (array items).text = Layout.enclosed "[" "]" (items.map text) := by
  have hinside := failure_separated.mpr h
  rw [array, text_append (by simp [hinside]), text_append rfl, text_separated h,
    Layout.enclosed]
  simp

/-! ## Entries -/

variable {style : Style}

theorem failure_entry {lead : List String} {e : View × Trace} :
    (entry style lead e).failure = none ↔
      (∃ key, e.1 = .str key) ∧ e.2.failure = none := by
  rcases e with ⟨key, value⟩
  cases key <;> simp [entry]

/-- An entry with its key and colon, after no comma. -/
theorem text_entry {e : View × Trace} (h : (entry style [] e).failure = none) :
    (entry style [] e).text =
      "\"" ++ Json.escaped style.jsonp e.1.keyText ++ "\":" ++ e.2.text := by
  obtain ⟨⟨key, hkey⟩, _⟩ := failure_entry.mp h
  rcases e with ⟨_, value⟩
  simp only at hkey
  subst hkey
  have hcolon : ("\":" : String) = "\"" ++ ":" := rfl
  rw [entry, text_append rfl, hcolon, ← String.toList_inj]
  simp [Json.quotedChunks, Json.escaped, View.keyText, String.toList_join]

theorem entry_comma {e : View × Trace} (h : ∃ key, e.1 = .str key) :
    entry style [","] e = emit [","] ++ entry style [] e := by
  obtain ⟨key, hkey⟩ := h
  rcases e with ⟨_, value⟩
  simp only at hkey
  subst hkey
  rw [entry, entry, ← append_assoc]
  rfl

theorem failure_commaLedEntries {entries : List (View × Trace)} :
    (commaLedEntries style entries).failure = none ↔
      ∀ e ∈ entries, (entry style [] e).failure = none := by
  induction entries with
  | nil => simp [commaLedEntries]
  | cons e rest ih => simp [commaLedEntries, ih, failure_entry]

theorem commaLedEntries_eq {entries : List (View × Trace)}
    (h : ∀ e ∈ entries, ∃ key, e.1 = .str key) :
    commaLedEntries style entries = commaLed (entries.map (entry style [])) := by
  induction entries with
  | nil => rfl
  | cons e rest ih =>
      rw [commaLedEntries, entry_comma (h e (by simp)), ih fun u hu => h u (by simp [hu]),
        List.map_cons, commaLed, append_assoc]

theorem failure_object {entries : List (View × Trace)} :
    (object style entries).failure = none ↔
      ∀ e ∈ entries, (∃ key, e.1 = .str key) ∧ e.2.failure = none := by
  cases entries with
  | nil => simp [object]
  | cons e rest => simp [object, failure_commaLedEntries, failure_entry]

theorem object_eq {entries : List (View × Trace)} (h : ∀ e ∈ entries, ∃ key, e.1 = .str key) :
    object style entries =
      emit ["\x7b"] ++ separated (entries.map (entry style [])) ++ emit ["\x7d"] := by
  cases entries with
  | nil => rfl
  | cons e rest =>
      rw [object, commaLedEntries_eq fun u hu => h u (by simp [hu])]
      rfl

theorem text_object {entries : List (View × Trace)}
    (h : (object style entries).failure = none) :
    (object style entries).text =
      Layout.enclosed "\x7b" "\x7d" (entries.map fun e =>
        "\"" ++ Json.escaped style.jsonp e.1.keyText ++ "\":" ++ e.2.text) := by
  have hentries := failure_object.mp h
  have hok : ∀ t ∈ entries.map (entry style []), t.failure = none := by
    intro t ht
    obtain ⟨e, he, rfl⟩ := List.mem_map.mp ht
    exact failure_entry.mpr (hentries e he)
  have htexts : (entries.map (entry style [])).map text = entries.map fun e =>
      "\"" ++ Json.escaped style.jsonp e.1.keyText ++ "\":" ++ e.2.text := by
    rw [List.map_map]
    exact List.map_congr_left fun e he => text_entry (failure_entry.mpr (hentries e he))
  have hinside := failure_separated.mpr hok
  rw [object_eq fun e he => (hentries e he).1, text_append (by simp [hinside]),
    text_append rfl, text_separated hok, htexts, Layout.enclosed]
  simp

/-! ## Characters -/

/-- A character that is written nowhere, not even before a failure. -/
def Lacks (t : Trace) (c : Char) : Prop := c ∉ t.text.toList

variable {c : Char}

theorem Lacks.append {a b : Trace} (ha : a.Lacks c) (hb : b.Lacks c) : (a ++ b).Lacks c := by
  intro h
  rcases mem_text_append h with h | h
  · exact ha h
  · exact hb h

theorem lacks_done : done.Lacks c := by
  simp [Lacks]

theorem lacks_fail (e : Error) : (fail e).Lacks c := by
  simp [Lacks]

theorem lacks_emit {chunks : List String} (h : ∀ chunk ∈ chunks, c ∉ chunk.toList) :
    (emit chunks).Lacks c := by
  intro hc
  rw [text_emit, String.toList_join, List.mem_flatMap] at hc
  obtain ⟨chunk, hchunk, hc⟩ := hc
  exact h chunk hchunk hc

theorem not_mem_of_ascii {text : String} (hc : ¬ c.toNat < 0x80)
    (h : text.toList.all (fun d => d.toNat < 0x80) = true) : c ∉ text.toList := by
  intro hmem
  rw [List.all_eq_true] at h
  exact hc (of_decide_eq_true (h c hmem))

/-- Brackets, commas and whatever else is ASCII. -/
theorem lacks_emit_of_ascii {text : String} (hc : ¬ c.toNat < 0x80)
    (h : text.toList.all (fun d => d.toNat < 0x80) = true) : (emit [text]).Lacks c :=
  lacks_emit fun chunk hchunk => by
    rw [List.mem_singleton.mp hchunk]
    exact not_mem_of_ascii hc h

theorem lacks_commaLed {ts : List Trace} (hc : ¬ c.toNat < 0x80) (h : ∀ t ∈ ts, t.Lacks c) :
    (commaLed ts).Lacks c := by
  induction ts with
  | nil => exact lacks_done
  | cons t ts ih =>
      have hcomma : (emit [","]).Lacks c := lacks_emit_of_ascii hc (by decide)
      exact hcomma.append ((h t (by simp)).append (ih fun u hu => h u (by simp [hu])))

theorem lacks_array {items : List Trace} (hc : ¬ c.toNat < 0x80) (h : ∀ t ∈ items, t.Lacks c) :
    (array items).Lacks c := by
  have hopen : (emit ["["]).Lacks c := lacks_emit_of_ascii hc (by decide)
  have hclose : (emit ["]"]).Lacks c := lacks_emit_of_ascii hc (by decide)
  have hitems : (separated items).Lacks c := by
    cases items with
    | nil => exact lacks_done
    | cons t ts =>
        exact (h t (by simp)).append (lacks_commaLed hc fun u hu => h u (by simp [hu]))
  exact (hopen.append hitems).append hclose

theorem lacks_entry {lead : List String} {e : View × Trace} (hc : ¬ c.toNat < 0x80)
    (hlead : ∀ chunk ∈ lead, c ∉ chunk.toList)
    (hkey : c ∉ (Json.escaped style.jsonp e.1.keyText).toList) (h : e.2.Lacks c) :
    (entry style lead e).Lacks c := by
  rcases e with ⟨key, value⟩
  cases key with
  | str key =>
      have hquote : c ∉ ("\"" : String).toList := not_mem_of_ascii hc (by decide)
      have hcolon : c ∉ (":" : String).toList := not_mem_of_ascii hc (by decide)
      have hkey' : ∀ chunk ∈ Json.escapedChunks style.jsonp key, c ∉ chunk.toList := by
        intro chunk hchunk hmem
        apply hkey
        rw [Json.escaped, String.toList_join, List.mem_flatMap]
        exact ⟨chunk, hchunk, hmem⟩
      refine Lacks.append (lacks_emit ?_) h
      intro chunk hchunk
      simp only [Json.quotedChunks, List.mem_append, List.mem_cons, List.not_mem_nil,
        or_false] at hchunk
      rcases hchunk with (hchunk | rfl | hchunk | rfl) | rfl
      · exact hlead chunk hchunk
      · exact hquote
      · exact hkey' chunk hchunk
      · exact hquote
      · exact hcolon
  | _ => exact lacks_fail _

theorem lacks_commaLedEntries {entries : List (View × Trace)} (hc : ¬ c.toNat < 0x80)
    (hkeys : ∀ e ∈ entries, c ∉ (Json.escaped style.jsonp e.1.keyText).toList)
    (h : ∀ e ∈ entries, e.2.Lacks c) : (commaLedEntries style entries).Lacks c := by
  have hcomma : ∀ chunk ∈ [","], c ∉ chunk.toList := by
    intro chunk hchunk
    rw [List.mem_singleton.mp hchunk]
    exact not_mem_of_ascii hc (by decide)
  induction entries with
  | nil => exact lacks_done
  | cons e rest ih =>
      have he := lacks_entry hc hcomma (hkeys e (by simp)) (h e (by simp))
      exact he.append (ih (fun u hu => hkeys u (by simp [hu])) fun u hu => h u (by simp [hu]))

theorem lacks_object {entries : List (View × Trace)} (hc : ¬ c.toNat < 0x80)
    (hkeys : ∀ e ∈ entries, c ∉ (Json.escaped style.jsonp e.1.keyText).toList)
    (h : ∀ e ∈ entries, e.2.Lacks c) : (object style entries).Lacks c := by
  have hopen : (emit ["\x7b"]).Lacks c := lacks_emit_of_ascii hc (by decide)
  have hclose : (emit ["\x7d"]).Lacks c := lacks_emit_of_ascii hc (by decide)
  refine Lacks.append (hopen.append ?_) hclose
  cases entries with
  | nil => exact lacks_done
  | cons e rest =>
      have he : (entry style [] e).Lacks c :=
        lacks_entry hc (by simp) (hkeys e (by simp)) (h e (by simp))
      exact he.append (lacks_commaLedEntries hc (fun u hu => hkeys u (by simp [hu]))
        fun u hu => h u (by simp [hu]))

end Trace
end JsonPlan
