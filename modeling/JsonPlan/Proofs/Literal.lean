import JsonPlan.Proofs.Json.Reading
import JsonPlan.Proofs.Output.Writing

/-!
String literals. What is written for a text, between two quotes, is a literal of that text; it is
written in as few calls as its escapes allow.
-/

namespace JsonPlan

namespace Json

variable {jsonp : Bool}

/-! ## Escapes -/

/-- A character that may not stand for itself. -/
def NeedsEscape (jsonp : Bool) (c : Char) : Prop :=
  c = '"' ∨ c = '\\' ∨ c.toNat < 0x20 ∨ (jsonp = true ∧ IsSeparator c)

/-- A backslash and one of seven characters, or `u` and four digits of which none is a capital. -/
inductive IsEscape : List Char → Prop where
  | short {x : Char} (mem : x ∈ ['"', '\\', 'n', 'r', 't', 'b', 'f']) : IsEscape ['\\', x]
  | unit {x y z w : Char} (mem : ∀ d ∈ [x, y, z, w], d ∈ "0123456789abcdef".toList) :
      IsEscape ['\\', 'u', x, y, z, w]

/-- A text and an escaped text for it: what needs no escape is unchanged. -/
inductive Escaping (jsonp : Bool) : List Char → List Char → Prop where
  | nil : Escaping jsonp [] []
  | self {c : Char} {cs out : List Char} (plain : ¬ NeedsEscape jsonp c)
      (rest : Escaping jsonp cs out) : Escaping jsonp (c :: cs) (c :: out)
  | escape {c : Char} {cs e out : List Char} (needs : NeedsEscape jsonp c) (escape : IsEscape e)
      (rest : Escaping jsonp cs out) : Escaping jsonp (c :: cs) (e ++ out)

theorem escape?_eq_none_iff {c : Char} : escape? jsonp c = none ↔ ¬ NeedsEscape jsonp c := by
  fun_cases escape? jsonp c with
  | case1 | case2 | case3 | case4 | case5 | case6 | case7 =>
      subst c
      simp [NeedsEscape]
  | case8 _ _ _ _ _ _ _ h =>
      obtain ⟨hjsonp, hc⟩ : jsonp = true ∧ c = '\u2028' := by
        simpa only [Bool.and_eq_true, decide_eq_true_eq] using h
      simp [NeedsEscape, IsSeparator, hjsonp, hc]
  | case9 _ _ _ _ _ _ _ _ h =>
      obtain ⟨hjsonp, hc⟩ : jsonp = true ∧ c = '\u2029' := by
        simpa only [Bool.and_eq_true, decide_eq_true_eq] using h
      simp [NeedsEscape, IsSeparator, hjsonp, hc]
  | case10 _ _ _ _ _ _ _ _ _ h => simp [NeedsEscape, h]
  | case11 hquote hbackslash _ _ _ _ _ hline hparagraph hcontrol =>
      simp only [Bool.and_eq_true, decide_eq_true_eq, not_and] at hline hparagraph
      simp only [NeedsEscape, IsSeparator, true_iff]
      rintro (h | h | h | ⟨hjsonp, h | h⟩)
      · exact hquote h
      · exact hbackslash h
      · exact hcontrol h
      · exact hline hjsonp h
      · exact hparagraph hjsonp h

theorem hexDigit_mem {n : Nat} (h : n < 16) : hexDigit n ∈ "0123456789abcdef".toList := by
  revert n
  decide

theorem isEscape_of_mem_escape? {c : Char} :
    ∀ chunks ∈ escape? jsonp c, IsEscape (String.join chunks).toList := by
  fun_cases escape? jsonp c with
  | case1 | case2 | case3 | case4 | case5 | case6 | case7 =>
      rintro _ ⟨⟩
      exact .short (by decide)
  | case8 =>
      rintro _ ⟨⟩
      exact .unit (x := '2') (y := '0') (z := '2') (w := '8') (by simp)
  | case9 =>
      rintro _ ⟨⟩
      exact .unit (x := '2') (y := '0') (z := '2') (w := '9') (by simp)
  | case10 =>
      rintro _ ⟨⟩
      have hhigh := hexDigit_mem (n := c.toNat / 16) (by omega)
      have hlow := hexDigit_mem (n := c.toNat % 16) (by omega)
      have hescape : IsEscape ['\\', 'u', '0', '0', hexDigit (c.toNat / 16),
          hexDigit (c.toNat % 16)] := .unit (by simp_all)
      simpa using hescape
  | case11 => rintro _ ⟨⟩

theorem escaping_flatMap (cs : List Char) :
    Escaping jsonp cs (cs.flatMap (escapeChars jsonp)) := by
  induction cs with
  | nil => exact .nil
  | cons c cs ih =>
      rw [List.flatMap_cons, escapeChars]
      cases h : escape? jsonp c with
      | none => exact .self (escape?_eq_none_iff.mp h) ih
      | some chunks =>
          have hneeds : NeedsEscape jsonp c := by
            by_contra hplain
            rw [escape?_eq_none_iff.mpr hplain] at h
            cases h
          exact .escape hneeds (isEscape_of_mem_escape? chunks h) ih

/-! ## Raw characters -/

theorem IsEscape.ascii {cs : List Char} (h : IsEscape cs) :
    ∀ c ∈ cs, 0x20 ≤ c.toNat ∧ c.toNat < 0x80 := by
  cases h with
  | @short x mem =>
      have hx : ∀ c ∈ ['"', '\\', 'n', 'r', 't', 'b', 'f'], 0x20 ≤ c.toNat ∧ c.toNat < 0x80 := by
        simp
      intro c hc
      rcases List.mem_cons.mp hc with rfl | hc
      · decide
      · obtain rfl := List.mem_singleton.mp hc
        exact hx c mem
  | unit mem =>
      have hdigit : ∀ c ∈ "0123456789abcdef".toList, 0x20 ≤ c.toNat ∧ c.toNat < 0x80 := by
        simp
      intro c hc
      rcases List.mem_cons.mp hc with rfl | hc
      · decide
      · rcases List.mem_cons.mp hc with rfl | hc
        · decide
        · exact hdigit c (mem c hc)

/-- No control is left in an escaped text, and no separator where it would end a script's
literal. -/
theorem Escaping.clean {cs out : List Char} (h : Escaping jsonp cs out) :
    ∀ c ∈ out, 0x20 ≤ c.toNat ∧ (jsonp = true → ¬ IsSeparator c) := by
  induction h with
  | nil => simp
  | self plain _ ih =>
      intro d hd
      rcases List.mem_cons.mp hd with rfl | hd
      · refine ⟨Nat.le_of_not_lt fun hcontrol => plain (.inr (.inr (.inl hcontrol))), ?_⟩
        exact fun hjsonp hd => plain (.inr (.inr (.inr ⟨hjsonp, hd⟩)))
      · exact ih d hd
  | escape _ escape _ ih =>
      intro d hd
      rcases List.mem_append.mp hd with hd | hd
      · obtain ⟨hlow, hhigh⟩ := escape.ascii d hd
        exact ⟨hlow, fun _ hseparator => hseparator.not_ascii hhigh⟩
      · exact ih d hd

theorem readString_escaped (jsonp : Bool) (s : String) (rest : List Char) :
    readString ((escaped jsonp s).toList ++ '"' :: rest) = some (s.toList, rest) := by
  rw [toList_escaped]
  exact readString_flatMap (fun c _ => standsFor_escapeChars jsonp c) rest

theorem escaped_inj {s r : String} : escaped jsonp s = escaped jsonp r ↔ s = r := by
  refine ⟨fun h => ?_, fun h => h ▸ rfl⟩
  have hs := readString_escaped jsonp s []
  rw [h, readString_escaped jsonp r []] at hs
  rw [← String.toList_inj, (Prod.mk.inj (Option.some.inj hs)).1]

end Json

open Json

variable {jsonp : Bool}

theorem Writing.escaped_into (jsonp : Bool) (s t : String) :
    (Writing.escaped jsonp s).into t = (t ++ Json.escaped jsonp s, none) := by
  rw [Writing.escaped_eq]
  refine (Trace.into_of_infallible Sink.infallible_string t _).trans ?_
  rw [Sink.after_string]
  rfl

theorem Writing.escaped_into_empty (jsonp : Bool) (s : String) :
    (Writing.escaped jsonp s).into "" = (Json.escaped jsonp s, none) := by
  rw [escaped_into, String.empty_append]

/-! ## Literals -/

/-- Between two quotes stands a literal of the text, and different texts have different ones. -/
theorem escaped_literal (jsonp : Bool) (s : String) :
    ∃ out, (Writing.escaped jsonp s).into "" = (out, none) ∧
      Escaping jsonp s.toList out.toList ∧
      (∀ c ∈ out.toList, 0x20 ≤ c.toNat ∧ (jsonp = true → ¬ IsSeparator c)) ∧
      (∀ rest, readString (out.toList ++ '"' :: rest) = some (s.toList, rest)) ∧
      Json.parse ("\"" ++ out ++ "\"") = some (.string s) ∧
      ∀ r, (Writing.escaped jsonp r).into "" = (out, none) ↔ r = s := by
  have hescaping : Escaping jsonp s.toList (Json.escaped jsonp s).toList := by
    rw [toList_escaped]
    exact escaping_flatMap s.toList
  refine ⟨Json.escaped jsonp s, Writing.escaped_into_empty jsonp s, hescaping, hescaping.clean,
    readString_escaped jsonp s, (reads_escaped jsonp s).parse, fun r => ?_⟩
  rw [Writing.escaped_into_empty, Prod.mk.injEq, escaped_inj]
  simp

theorem escaped_literal_mixed :
    ∃ out, (Writing.escaped true "é\"\x01\u2028").into "" = (out, none) ∧
      out = "é\\\"\\u0001\\u2028" ∧
      ('\\' ∈ out.toList ∧ 0x20 ≤ '\\'.toNat ∧ ¬ IsSeparator '\\') ∧
      Json.parse ("\"" ++ out ++ "\"") = some (.string "é\"\x01\u2028") := by
  obtain ⟨out, hinto, _, hclean, _, hparse, _⟩ := escaped_literal true "é\"\x01\u2028"
  have hout : out = "é\\\"\\u0001\\u2028" := by
    have hescaped := Writing.escaped_into_empty true "é\"\x01\u2028"
    rw [hinto] at hescaped
    rw [(Prod.mk.inj hescaped).1]
    decide
  have hmem : '\\' ∈ out.toList := by
    rw [hout]
    decide
  exact ⟨out, hinto, hout, ⟨hmem, (hclean _ hmem).1, (hclean _ hmem).2 rfl⟩, hparse⟩

/-! ## Calls -/

/-- What is promised about the parts in which a text is handed over. -/
structure Json.Batches (jsonp : Bool) (s : String) (parts : List Piece) : Prop where
  /-- The bytes of a run lie between two boundaries of characters inside the text. -/
  inside : ∀ start stop, .run start stop ∈ parts →
    start.IsValid s ∧ stop.IsValid s ∧ start < stop
  plain : ∀ start stop, .run start stop ∈ parts →
    ∀ c ∈ (start.extract s stop).toList, ¬ NeedsEscape jsonp c
  /-- Each part has its calls, and none of them is empty. -/
  chunks : ∀ p ∈ parts, p.chunks s ≠ [] ∧ ∀ chunk ∈ p.chunks s, chunk ≠ ""
  apart : parts.IsChain Piece.Apart

theorem Json.batches_pieces (jsonp : Bool) (s : String) : Batches jsonp s (pieces jsonp s) where
  inside _ _ h := (covers_pieces jsonp s _ h).isValid
  plain _ _ h c hc := escape?_eq_none_iff.mp ((covers_pieces jsonp s _ h).plain c hc)
  chunks p h := (covers_pieces jsonp s p h).chunks
  apart := isChain_pieces jsonp s

theorem Json.escaped_append (jsonp : Bool) (s r : String) :
    escaped jsonp (s ++ r) = escaped jsonp s ++ escaped jsonp r := by
  rw [← String.toList_inj, String.toList_append, toList_escaped, toList_escaped, toList_escaped,
    String.toList_append, List.flatMap_append]

theorem Writing.escaped_append_into (jsonp : Bool) (s r t : String) :
    (Writing.escaped jsonp (s ++ r)).into t =
      (Writing.escaped jsonp s ++ Writing.escaped jsonp r).into t := by
  rw [into_append, escaped_into, escaped_into, escaped_append, ← String.append_assoc,
    ← escaped_into]

/-- A text is handed over in runs and escapes, one call for each chunk. The runs are as long as they
can be, and all together is each character escaped by itself. -/
theorem escaped_batches (jsonp : Bool) (s : String) :
    Batches jsonp s (pieces jsonp s) ∧
      (∀ {σ : Type} [Sink σ], Sink.Infallible σ → ∀ t : σ,
        (Writing.escaped jsonp s).into t =
          (Sink.after t ((pieces jsonp s).flatMap (Piece.chunks s)), none)) ∧
      (String.join ((pieces jsonp s).flatMap (Piece.chunks s))).toList =
        s.toList.flatMap (escapeChars jsonp) ∧
      (∀ r t : String, (Writing.escaped jsonp (s ++ r)).into t =
        (Writing.escaped jsonp s ++ Writing.escaped jsonp r).into t) ∧
      ((∀ c ∈ s.toList, ¬ NeedsEscape jsonp c) →
        ((pieces jsonp s).flatMap (Piece.chunks s)).length ≤ 1) := by
  refine ⟨batches_pieces jsonp s, fun hσ t => ?_, toList_join_pieces jsonp s,
    Writing.escaped_append_into jsonp s, fun hplain => ?_⟩
  · rw [Writing.escaped_eq]
    exact Trace.into_of_infallible hσ t _
  · rw [pieces_of_plain fun c hc => escape?_eq_none_iff.mpr (hplain c hc), Piece.between]
    split <;> simp [Piece.chunks]

theorem escaped_batches_separator :
    (Writing.escaped true "é\u2028b\n").into Recorder.new =
        (⟨#["é", "\\u2028", "b", "\\n"], #[]⟩, none) ∧
      ((pieces false "é\u2028b").flatMap (Piece.chunks "é\u2028b")).length ≤ 1 := by
  obtain ⟨_, hcalls, _⟩ := escaped_batches true "é\u2028b\n"
  obtain ⟨_, _, _, _, hplain⟩ := escaped_batches false "é\u2028b"
  refine ⟨(hcalls Sink.infallible_recorder _).trans ?_, hplain ?_⟩
  · have hchunks : (pieces true "é\u2028b\n").flatMap (Piece.chunks "é\u2028b\n") =
        ["é", "\\u2028", "b", "\\n"] := by
      decide
    rw [hchunks]
    rfl
  · simp [NeedsEscape]

end JsonPlan
