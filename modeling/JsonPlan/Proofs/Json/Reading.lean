import JsonPlan.Proofs.Json.Escape
import JsonPlan.Proofs.Output.Trace

/-! Texts that the reader takes for a tree, whatever follows them. -/

namespace JsonPlan.Json

/-- Nothing that could belong to a number comes first. -/
def Stops (rest : List Char) : Prop :=
  ∀ c, rest.head? = some c → isDigit c = false ∧ c ≠ '.' ∧ c ≠ 'e' ∧ c ≠ 'E'

/-- Fuel as long as the text is enough: each reader inside another one follows a character. -/
def Reads (text : String) (j : Json) : Prop :=
  ∀ rest, Stops rest → ∀ fuel, text.toList.length ≤ fuel →
    readValue fuel (text.toList ++ rest) = some (j, rest)

theorem stops_nil : Stops [] := by
  intro c hc
  cases hc

theorem stops_cons {c : Char} {rest : List Char}
    (h : isDigit c = false ∧ c ≠ '.' ∧ c ≠ 'e' ∧ c ≠ 'E') : Stops (c :: rest) := by
  intro d hd
  obtain rfl : c = d := by simpa using hd
  exact h

theorem exists_fuel {c : Char} {cs : List Char} {fuel : Nat} (h : (c :: cs).length ≤ fuel) :
    ∃ k, fuel = k + 1 ∧ cs.length ≤ k := by
  cases fuel with
  | zero => cases h
  | succ k => exact ⟨k, rfl, Nat.le_of_succ_le_succ h⟩

/-! ## First characters -/

theorem readValue_eq_none {c : Char} (h : isSpace c = true ∨ c = ']') (fuel : Nat)
    (rest : List Char) : readValue fuel (c :: rest) = none := by
  cases fuel with
  | zero => exact readValue_zero _
  | succ fuel =>
      simp only [isSpace, Bool.or_eq_true, decide_eq_true_eq] at h
      obtain (((rfl | rfl) | rfl) | rfl) | rfl := h <;>
        simp [readValue, readNumber, readUnsigned, readWhole, readDigits, isDigit]

namespace Reads

variable {text : String} {j : Json}

theorem exists_cons (h : Reads text j) :
    ∃ c rest, text.toList = c :: rest ∧ isSpace c = false ∧ c ≠ ']' := by
  have hread := h [] stops_nil text.toList.length (by simp)
  rw [List.append_nil] at hread
  cases htext : text.toList with
  | nil => simp [htext, readValue] at hread
  | cons c rest =>
      refine ⟨c, rest, rfl, ?_⟩
      rw [htext] at hread
      constructor
      · rw [← Bool.not_eq_true]
        intro hspace
        rw [readValue_eq_none (.inl hspace)] at hread
        cases hread
      · rintro rfl
        rw [readValue_eq_none (.inr rfl)] at hread
        cases hread

theorem skipSpace_append (h : Reads text j) (rest : List Char) :
    skipSpace (text.toList ++ rest) = text.toList ++ rest := by
  obtain ⟨c, cs, htext, hspace, _⟩ := h.exists_cons
  rw [htext, skipSpace, List.cons_append, List.dropWhile_cons_of_neg (by simp [hspace])]

theorem parse (h : Reads text j) : Json.parse text = some j := by
  have hskip := h.skipSpace_append []
  have hread := h [] stops_nil (2 * text.toList.length + 2) (by omega)
  rw [List.append_nil] at hskip hread
  rw [Json.parse, hskip, hread]
  simp [skipSpace]

end Reads

/-! ## Words -/

theorem reads_null : Reads "null" .null := by
  intro rest _ fuel hfuel
  obtain ⟨fuel, rfl, _⟩ := exists_fuel hfuel
  simp [readValue]

theorem reads_bool (b : Bool) : Reads (if b then "true" else "false") (.bool b) := by
  intro rest _ fuel hfuel
  cases b with
  | true =>
      obtain ⟨fuel, rfl, _⟩ := exists_fuel hfuel
      simp [readValue]
  | false =>
      obtain ⟨fuel, rfl, _⟩ := exists_fuel hfuel
      simp [readValue]

/-! ## Strings -/

theorem readString_standsFor {jsonp : Bool} {c : Char} {cs : List Char}
    (h : StandsFor jsonp c cs) (rest : List Char) :
    readString (cs ++ rest) = (readString rest).map fun s => (c :: s.1, s.2) := by
  cases h with
  | self control quote backslash separator =>
      have hplain : ¬ (c.toNat < 0x20 ∨ c = '\\') := by
        rintro (h | h)
        · exact absurd control (Nat.not_le_of_lt h)
        · exact backslash h
      rw [List.singleton_append, readString, if_neg hplain]
      · exact quote
      · intro _ _ _ _ _ h
        exact absurd h backslash
      · intro _ _ h
        exact absurd h backslash
  | @short x read =>
      have hx : x ≠ 'u' := by
        rintro rfl
        cases read
      rw [List.cons_append, List.singleton_append, readString, read]
      intro _ _ _ _ _ h
      exact absurd h hx
  | unit read whole =>
      rw [readString.eq_def]
      simp [read, whole]

/-- A string literal reads as the text for whose characters its inside stands. -/
theorem readString_flatMap {jsonp : Bool} {f : Char → List Char} {cs : List Char}
    (h : ∀ c ∈ cs, StandsFor jsonp c (f c)) (rest : List Char) :
    readString (cs.flatMap f ++ '"' :: rest) = some (cs, rest) := by
  induction cs with
  | nil => simp [readString]
  | cons c cs ih =>
      rw [List.flatMap_cons, List.append_assoc, readString_standsFor (h c (by simp)),
        ih fun d hd => h d (by simp [hd])]
      rfl

theorem toList_quotedWith {f : Char → List Char} {s inside : String}
    (h : inside.toList = s.toList.flatMap f) :
    ("\"" ++ inside ++ "\"").toList = '"' :: (s.toList.flatMap f ++ ['"']) := by
  simp [h]

theorem reads_string {jsonp : Bool} {f : Char → List Char} {s inside : String}
    (hinside : inside.toList = s.toList.flatMap f)
    (h : ∀ c ∈ s.toList, StandsFor jsonp c (f c)) : Reads ("\"" ++ inside ++ "\"") (.string s) := by
  intro rest _ fuel hfuel
  rw [toList_quotedWith hinside] at hfuel ⊢
  obtain ⟨fuel, rfl, _⟩ := exists_fuel hfuel
  have hread := readString_flatMap h rest
  simp only [List.cons_append, List.append_assoc, List.nil_append]
  rw [readValue, hread]
  simp

theorem reads_escaped (jsonp : Bool) (s : String) :
    Reads ("\"" ++ escaped jsonp s ++ "\"") (.string s) :=
  reads_string (toList_escaped s) fun c _ => standsFor_escapeChars jsonp c

/-! ## Arrays -/

/-- Values that are left in an array, each behind a comma, up to its bracket. -/
theorem readItems_of_reads {x : String × Json} {xs : List (String × Json)}
    (h : ∀ i ∈ x :: xs, Reads i.1 i.2) (rest : List Char) (fuel : Nat)
    (hfuel : x.1.toList.length + (xs.flatMap fun i => ',' :: i.1.toList).length < fuel) :
    readItems fuel
        (x.1.toList ++ ((xs.flatMap fun i => ',' :: i.1.toList) ++ ']' :: rest)) =
      some ((x :: xs).map Prod.snd, rest) := by
  induction xs generalizing x fuel with
  | nil =>
      obtain ⟨fuel, rfl⟩ := Nat.exists_eq_add_one_of_ne_zero (Nat.ne_zero_of_lt hfuel)
      have hx := h x (by simp) (']' :: rest) (stops_cons (by decide)) fuel
      simp only [List.flatMap_nil, List.nil_append, List.length_nil] at hfuel ⊢
      rw [readItems, hx (by omega)]
      simp [skipSpace, isSpace]
  | cons y ys ih =>
      obtain ⟨fuel, rfl⟩ := Nat.exists_eq_add_one_of_ne_zero (Nat.ne_zero_of_lt hfuel)
      simp only [List.flatMap_cons, List.cons_append, List.append_assoc, List.length_cons,
        List.length_append] at hfuel ⊢
      have hx := h x (by simp) (',' :: (y.1.toList ++
        ((ys.flatMap fun i => ',' :: i.1.toList) ++ ']' :: rest))) (stops_cons (by decide)) fuel
      have hskip := (h y (by simp)).skipSpace_append
        ((ys.flatMap fun i => ',' :: i.1.toList) ++ ']' :: rest)
      have hrest := ih (fun i hi => h i (List.mem_cons_of_mem x hi)) fuel (by omega)
      have hcomma : skipSpace (',' :: (y.1.toList ++
          ((ys.flatMap fun i => ',' :: i.1.toList) ++ ']' :: rest))) = _ :=
        List.dropWhile_cons_of_neg (by decide)
      rw [readItems, hx (by omega)]
      simp only [hcomma, hskip, hrest, Option.map_some, List.map_cons]

theorem toList_enclosed (left right : Char) (x : String) (xs : List String) :
    (Layout.enclosed (.singleton left) (.singleton right) (x :: xs)).toList =
      left :: (x.toList ++ ((xs.flatMap fun u => ',' :: u.toList) ++ [right])) := by
  simp [Layout.enclosed, intercalate_cons, String.toList_join, List.flatMap_map]

theorem reads_array {items : List (String × Json)} (h : ∀ i ∈ items, Reads i.1 i.2) :
    Reads (Layout.enclosed "[" "]" (items.map Prod.fst)) (.array (items.map Prod.snd)) := by
  intro rest _ fuel hfuel
  cases items with
  | nil =>
      have htext : (Layout.enclosed "[" "]" []).toList = ['[', ']'] := by decide
      rw [List.map_nil, htext] at hfuel ⊢
      obtain ⟨fuel, rfl, _⟩ := exists_fuel hfuel
      rw [List.cons_append, readValue]
      simp [skipSpace, isSpace]
  | cons x xs =>
      have htext := toList_enclosed '[' ']' x.1 (xs.map Prod.fst)
      rw [List.flatMap_map] at htext
      obtain ⟨c, cs, hc, _, hbracket⟩ := (h x (by simp)).exists_cons
      have hskip := (h x (by simp)).skipSpace_append
        ((xs.flatMap fun i => ',' :: i.1.toList) ++ ']' :: rest)
      rw [List.map_cons, show (Layout.enclosed "[" "]" _).toList = _ from htext] at hfuel ⊢
      obtain ⟨fuel, rfl, hlength⟩ := exists_fuel hfuel
      have hitems := readItems_of_reads h rest fuel
        (by simp only [List.length_append, List.length_singleton] at hlength; omega)
      simp only [List.cons_append, List.append_assoc, List.nil_append]
      rw [readValue, hskip]
      split
      · rename_i r heq
        rw [hc] at heq
        exact absurd (List.cons.inj heq).1 hbracket
      · rw [hitems]
        rfl

/-! ## Objects -/

/-- A name with its colon, whatever value follows. -/
def ReadsKey (text key : String) : Prop :=
  ∀ rest, skipSpace rest = rest → readKey (text.toList ++ rest) = some (key, rest)

theorem readsKey_string {jsonp : Bool} {f : Char → List Char} {s inside : String}
    (hinside : inside.toList = s.toList.flatMap f)
    (h : ∀ c ∈ s.toList, StandsFor jsonp c (f c)) : ReadsKey ("\"" ++ inside ++ "\":") s := by
  intro rest hrest
  have htext : ("\"" ++ inside ++ "\":").toList ++ rest =
      '"' :: (s.toList.flatMap f ++ '"' :: ':' :: rest) := by
    simp [hinside]
  have hcolon : skipSpace (':' :: rest) = ':' :: rest := List.dropWhile_cons_of_neg (by decide)
  simp only [htext, readKey, readString_flatMap h, hcolon, hrest, String.ofList_toList]

theorem readsKey_escaped (jsonp : Bool) (s : String) :
    ReadsKey ("\"" ++ escaped jsonp s ++ "\":") s :=
  readsKey_string (toList_escaped s) fun c _ => standsFor_escapeChars jsonp c

theorem readsKey_memberName (name : String) : ReadsKey (memberName name) name := by
  have htext : memberName name = "\"" ++ escaped false name ++ "\":" := by
    rw [← String.toList_inj]
    simp [memberName, quoted]
  rw [htext]
  exact readsKey_escaped false name

theorem ReadsKey.exists_cons {text key : String} (h : ReadsKey text key) :
    ∃ cs, text.toList = '"' :: cs := by
  have hread := h [] rfl
  rw [List.append_nil] at hread
  cases htext : text.toList with
  | nil => simp [htext, readKey] at hread
  | cons c cs =>
      by_cases hc : c = '"'
      · exact ⟨cs, by rw [hc]⟩
      · rw [htext, readKey.eq_def] at hread
        simp [hc] at hread

/-- An entry as it is read: the text of its name with the colon, and that of its value. -/
structure Entry where
  lead : String
  key : String
  text : String
  value : Json

structure Entry.Reads (e : Entry) : Prop where
  key : ReadsKey e.lead e.key
  value : Json.Reads e.text e.value

namespace Entry

/-- The characters of an entry. -/
def chars (e : Entry) : List Char := e.lead.toList ++ e.text.toList

theorem Reads.exists_cons {e : Entry} (h : e.Reads) : ∃ cs, e.chars = '"' :: cs := by
  obtain ⟨cs, hlead⟩ := h.key.exists_cons
  exact ⟨cs ++ e.text.toList, by rw [chars, hlead, List.cons_append]⟩

theorem Reads.skipSpace_append {e : Entry} (h : e.Reads) (rest : List Char) :
    skipSpace (e.chars ++ rest) = e.chars ++ rest := by
  obtain ⟨cs, hchars⟩ := h.exists_cons
  rw [hchars]
  exact List.dropWhile_cons_of_neg (by decide)

/-- The name comes off first, and then the value. -/
theorem Reads.readValue_append {e : Entry} (h : e.Reads) (rest : List Char) (hrest : Stops rest)
    (fuel : Nat) (hfuel : e.chars.length ≤ fuel) :
    ∃ r, readKey (e.chars ++ rest) = some (e.key, r) ∧
      readValue fuel r = some (e.value, rest) := by
  rw [chars, List.length_append] at hfuel
  rw [chars, List.append_assoc]
  exact ⟨_, h.key _ (h.value.skipSpace_append rest), h.value rest hrest fuel (by omega)⟩

end Entry

/-- Entries that are left in an object, each behind a comma, up to its brace. -/
theorem readEntries_of_reads {x : Entry} {xs : List Entry} (h : ∀ e ∈ x :: xs, e.Reads)
    (rest : List Char) (fuel : Nat)
    (hfuel : x.chars.length + (xs.flatMap fun e => ',' :: e.chars).length < fuel) :
    readEntries fuel
        (x.chars ++ ((xs.flatMap fun e => ',' :: e.chars) ++ '\x7d' :: rest)) =
      some ((x :: xs).map fun e => (e.key, e.value), rest) := by
  have hx := h x (by simp)
  induction xs generalizing x fuel with
  | nil =>
      obtain ⟨fuel, rfl⟩ := Nat.exists_eq_add_one_of_ne_zero (Nat.ne_zero_of_lt hfuel)
      simp only [List.flatMap_nil, List.nil_append, List.length_nil] at hfuel ⊢
      obtain ⟨r, hkey, hvalue⟩ := hx.readValue_append ('\x7d' :: rest)
        (stops_cons (by decide)) fuel (by omega)
      rw [readEntries, hkey]
      simp [hvalue, skipSpace, isSpace]
  | cons y ys ih =>
      obtain ⟨fuel, rfl⟩ := Nat.exists_eq_add_one_of_ne_zero (Nat.ne_zero_of_lt hfuel)
      simp only [List.flatMap_cons, List.cons_append, List.append_assoc, List.length_cons,
        List.length_append] at hfuel ⊢
      obtain ⟨r, hkey, hvalue⟩ := hx.readValue_append (',' :: (y.chars ++
        ((ys.flatMap fun e => ',' :: e.chars) ++ '\x7d' :: rest)))
        (stops_cons (by decide)) fuel (by omega)
      have hy := h y (by simp)
      have hskip := hy.skipSpace_append
        ((ys.flatMap fun e => ',' :: e.chars) ++ '\x7d' :: rest)
      have hrest := ih (fun e he => h e (List.mem_cons_of_mem x he)) fuel (by omega) hy
      have hcomma : skipSpace (',' :: (y.chars ++
          ((ys.flatMap fun e => ',' :: e.chars) ++ '\x7d' :: rest))) = _ :=
        List.dropWhile_cons_of_neg (by decide)
      rw [readEntries, hkey]
      simp only [hvalue, hcomma, hskip, hrest, Option.map_some, List.map_cons]

theorem reads_object {entries : List Entry} (h : ∀ e ∈ entries, e.Reads) :
    Reads (Layout.enclosed "\x7b" "\x7d" (entries.map fun e => e.lead ++ e.text))
      (.object (entries.map fun e => (e.key, e.value))) := by
  intro rest _ fuel hfuel
  cases entries with
  | nil =>
      have htext : (Layout.enclosed "\x7b" "\x7d" []).toList = ['\x7b', '\x7d'] := by decide
      rw [List.map_nil, htext] at hfuel ⊢
      obtain ⟨fuel, rfl, _⟩ := exists_fuel hfuel
      rw [List.cons_append, readValue]
      simp [skipSpace, isSpace]
  | cons x xs =>
      have htext := toList_enclosed '\x7b' '\x7d' (x.lead ++ x.text)
        (xs.map fun e => e.lead ++ e.text)
      simp only [List.flatMap_map, String.toList_append] at htext
      obtain ⟨cs, hc⟩ := (h x (by simp)).exists_cons
      have hskip := (h x (by simp)).skipSpace_append
        ((xs.flatMap fun e => ',' :: e.chars) ++ '\x7d' :: rest)
      rw [List.map_cons, show (Layout.enclosed "\x7b" "\x7d" _).toList =
        '\x7b' :: (x.chars ++ ((xs.flatMap fun e => ',' :: e.chars) ++ ['\x7d'])) from htext]
        at hfuel ⊢
      obtain ⟨fuel, rfl, hlength⟩ := exists_fuel hfuel
      have hentries := readEntries_of_reads h rest fuel
        (by simp only [List.length_append, List.length_singleton] at hlength; omega)
      simp only [List.cons_append, List.append_assoc, List.nil_append]
      rw [readValue, hskip]
      split
      · rename_i r heq
        rw [hc] at heq
        exact absurd (List.cons.inj heq).1 (by decide)
      · rw [hentries]
        rfl

end JsonPlan.Json
