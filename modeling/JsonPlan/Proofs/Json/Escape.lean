import JsonPlan.Json.Reader
import JsonPlan.Proofs.Json.Pieces
import Mathlib.Tactic.SplitIfs

/-! Escaped texts, one character at a time. -/

namespace JsonPlan.Json

variable {jsonp : Bool}

/-! ## Texts -/

theorem toList_escaped (s : String) :
    (escaped jsonp s).toList = s.toList.flatMap (escapeChars jsonp) :=
  toList_join_pieces jsonp s

theorem join_quotedChunks (s : String) :
    String.join (quotedChunks jsonp s) = "\"" ++ escaped jsonp s ++ "\"" := by
  rw [← String.toList_inj]
  simp [quotedChunks, escaped, String.toList_join]

theorem toList_memberName (name : String) :
    (memberName name).toList =
      '"' :: (name.toList.flatMap (escapeChars false) ++ ['"', ':']) := by
  simp [memberName, quoted, toList_escaped]

/-! ## Characters -/

/-- The two characters that end a script's string literals. -/
def IsSeparator (c : Char) : Prop := c = '\u2028' ∨ c = '\u2029'

/-- The ways in which characters of a string literal stand for one character. -/
inductive StandsFor (jsonp : Bool) (c : Char) : List Char → Prop where
  | self (control : 0x20 ≤ c.toNat) (quote : c ≠ '"') (backslash : c ≠ '\\')
      (separator : jsonp = true → ¬ IsSeparator c) : StandsFor jsonp c [c]
  | short {x : Char} (read : shortEscape? x = some c) : StandsFor jsonp c ['\\', x]
  | unit {x y z w : Char} (read : codeUnit? x y z w = some c.toNat) (whole : c.toNat < 0xd800) :
      StandsFor jsonp c ['\\', 'u', x, y, z, w]

theorem hexValue?_hexDigit {n : Nat} (h : n < 16) : hexValue? (hexDigit n) = some n := by
  revert n
  decide

theorem codeUnit?_hexDigit {n : Nat} (h : n < 0x100) :
    codeUnit? '0' '0' (hexDigit (n / 16)) (hexDigit (n % 16)) = some n := by
  have hhigh := hexValue?_hexDigit (n := n / 16) (by omega)
  have hlow := hexValue?_hexDigit (n := n % 16) (by omega)
  have hzero : hexValue? '0' = some 0 := by decide
  simp [codeUnit?, hhigh, hlow, hzero]
  omega

theorem standsFor_escapeChars (jsonp : Bool) (c : Char) :
    StandsFor jsonp c (escapeChars jsonp c) := by
  rw [escapeChars]
  fun_cases escape? jsonp c with
  | case1 | case2 | case3 | case4 | case5 | case6 | case7 =>
      subst c
      exact .short rfl
  | case8 _ _ _ _ _ _ _ h =>
      obtain ⟨_, rfl⟩ : jsonp = true ∧ c = '\u2028' := by
        simpa only [Bool.and_eq_true, decide_eq_true_eq] using h
      exact .unit rfl (by decide)
  | case9 _ _ _ _ _ _ _ _ h =>
      obtain ⟨_, rfl⟩ : jsonp = true ∧ c = '\u2029' := by
        simpa only [Bool.and_eq_true, decide_eq_true_eq] using h
      exact .unit rfl (by decide)
  | case10 =>
      have hunit := codeUnit?_hexDigit (n := c.toNat) (by omega)
      have hstands : StandsFor jsonp c _ := .unit hunit (by omega)
      simpa using hstands
  | case11 hquote hbackslash _ _ _ _ _ hline hparagraph =>
      simp only [Bool.and_eq_true, decide_eq_true_eq, not_and] at hline hparagraph
      refine .self (by omega) hquote hbackslash fun hjsonp => ?_
      rintro (hseparator | hseparator)
      · exact hline hjsonp hseparator
      · exact hparagraph hjsonp hseparator

/-! ## Separators -/

theorem IsSeparator.not_ascii {c : Char} (h : IsSeparator c) : ¬ c.toNat < 0x80 := by
  rcases h with rfl | rfl <;> decide

theorem ascii_of_shortEscape? {x c : Char} (h : shortEscape? x = some c) : x.toNat < 0x80 := by
  unfold shortEscape? at h
  split_ifs at h with hself hn hr ht hb hf
  · rcases hself with rfl | rfl | rfl <;> decide
  all_goals
    subst x
    decide

theorem ascii_of_hexValue? {x : Char} {n : Nat} (h : hexValue? x = some n) : x.toNat < 0x80 := by
  unfold hexValue? at h
  simp only [Char.le_def, UInt32.le_iff_toNat_le] at h
  split_ifs at h with hdigit hlower hupper
  · exact Nat.lt_of_le_of_lt hdigit.2 (by decide)
  · exact Nat.lt_of_le_of_lt hlower.2 (by decide)
  · exact Nat.lt_of_le_of_lt hupper.2 (by decide)

theorem ascii_of_codeUnit? {x y z w : Char} {n : Nat} (h : codeUnit? x y z w = some n) :
    ∀ d ∈ [x, y, z, w], d.toNat < 0x80 := by
  simp only [codeUnit?, Option.bind_eq_bind, Option.bind_eq_some_iff, Option.pure_def] at h
  obtain ⟨_, hx, _, hy, _, hz, _, hw, _⟩ := h
  simp [ascii_of_hexValue? hx, ascii_of_hexValue? hy, ascii_of_hexValue? hz,
    ascii_of_hexValue? hw]

/-- The only separator that can stand for a character is that character. -/
theorem StandsFor.eq_of_isSeparator {c d : Char} {cs : List Char} (h : StandsFor jsonp c cs)
    (hmem : d ∈ cs) (hd : IsSeparator d) : jsonp = false ∧ d = c := by
  cases h with
  | self _ _ _ separator =>
      obtain rfl := List.mem_singleton.mp hmem
      cases jsonp with
      | false => exact ⟨rfl, rfl⟩
      | true => exact absurd hd (separator rfl)
  | short read =>
      have hx := ascii_of_shortEscape? read
      rcases List.mem_cons.mp hmem with rfl | hmem
      · exact absurd (by decide) hd.not_ascii
      · obtain rfl := List.mem_singleton.mp hmem
        exact absurd hx hd.not_ascii
  | unit read _ =>
      have hunit := ascii_of_codeUnit? read
      rcases List.mem_cons.mp hmem with rfl | hmem
      · exact absurd (by decide) hd.not_ascii
      · rcases List.mem_cons.mp hmem with rfl | hmem
        · exact absurd (by decide) hd.not_ascii
        · exact absurd (hunit d hmem) hd.not_ascii

theorem not_isSeparator_of_mem_escaped {s : String} {d : Char} (h : d ∈ (escaped true s).toList) :
    ¬ IsSeparator d := by
  intro hd
  rw [toList_escaped, List.mem_flatMap] at h
  obtain ⟨c, _, hc⟩ := h
  simpa using (standsFor_escapeChars true c).eq_of_isSeparator hc hd

/-- A plain literal keeps the separators of its text. -/
theorem mem_escaped_false {s : String} {d : Char} (hd : IsSeparator d) :
    d ∈ (escaped false s).toList ↔ d ∈ s.toList := by
  rw [toList_escaped, List.mem_flatMap]
  constructor
  · rintro ⟨c, hc, hmem⟩
    obtain ⟨_, rfl⟩ := (standsFor_escapeChars false c).eq_of_isSeparator hmem hd
    exact hc
  · intro h
    refine ⟨d, h, ?_⟩
    rcases hd with rfl | rfl <;> decide

/-- So does the literal in front of a member's value, in every style. -/
theorem mem_memberName {name : String} {d : Char} (hd : IsSeparator d) :
    d ∈ (memberName name).toList ↔ d ∈ name.toList := by
  have hquote : d ≠ '"' := by
    rintro rfl
    exact hd.not_ascii (by decide)
  have hcolon : d ≠ ':' := by
    rintro rfl
    exact hd.not_ascii (by decide)
  have hinside := mem_escaped_false (s := name) hd
  rw [toList_escaped] at hinside
  rw [toList_memberName, ← hinside]
  simp [hquote, hcolon]

end JsonPlan.Json
