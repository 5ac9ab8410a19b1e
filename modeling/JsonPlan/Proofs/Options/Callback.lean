import Mathlib.Computability.Language
import JsonPlan.Options.Basic

/-!
Exactly the words of the grammar `ident ('.' ident)*` are accepted as callbacks. A text is taken
apart at its dots, and none of its parts has a dot of its own.
-/

namespace JsonPlan.Options

open Computability

/-! ## Identifiers -/

def identStart : Set Char := {c | 'A' ≤ c ∧ c ≤ 'Z' ∨ 'a' ≤ c ∧ c ≤ 'z' ∨ c = '_' ∨ c = '$'}

def identRest : Set Char := {c | c ∈ identStart ∨ '0' ≤ c ∧ c ≤ '9'}

def ident : Language Char := {w | ∃ c ∈ identStart, ∃ cs, (∀ d ∈ cs, d ∈ identRest) ∧ w = c :: cs}

theorem isIdentStart_iff {c : Char} : isIdentStart c = true ↔ c ∈ identStart := by
  have hstart : isIdentStart c = ((decide ('A' ≤ c ∧ c ≤ 'Z') ||
      decide ('a' ≤ c) && decide (c ≤ 'z')) || decide (c = '_') || decide (c = '$')) := rfl
  simp [hstart, identStart, or_assoc]

theorem isIdentRest_iff {c : Char} : isIdentRest c = true ↔ c ∈ identRest := by
  have hdigit : c.isDigit = (decide ('0' ≤ c) && decide (c ≤ '9')) := rfl
  rw [isIdentRest, Bool.or_eq_true, isIdentStart_iff]
  simp [hdigit, identRest]

theorem isIdent_iff {w : List Char} : isIdent w = true ↔ w ∈ ident := by
  constructor
  · intro h
    cases w with
    | nil => cases h
    | cons c cs =>
        rw [isIdent, Bool.and_eq_true, List.all_eq_true] at h
        exact ⟨c, isIdentStart_iff.mp h.1, cs, fun d hd => isIdentRest_iff.mp (h.2 d hd), rfl⟩
  · rintro ⟨c, hc, cs, hcs, rfl⟩
    rw [isIdent, Bool.and_eq_true, List.all_eq_true]
    exact ⟨isIdentStart_iff.mpr hc, fun d hd => isIdentRest_iff.mpr (hcs d hd)⟩

theorem ascii_of_isIdentRest {c : Char} (h : isIdentRest c = true) : c.toNat < 0x80 := by
  have hbelow {d : Char} (hc : c ≤ d) (hd : d.toNat < 0x80) : c.toNat < 0x80 :=
    Nat.lt_of_le_of_lt (UInt32.le_iff_toNat_le.mp hc) hd
  rcases isIdentRest_iff.mp h with (⟨-, hc⟩ | ⟨-, hc⟩ | rfl | rfl) | ⟨-, hc⟩
  · exact hbelow hc (by decide)
  · exact hbelow hc (by decide)
  · decide
  · decide
  · exact hbelow hc (by decide)

theorem isIdentRest_of_isIdent {cs : List Char} (h : isIdent cs = true) {c : Char} (hc : c ∈ cs) :
    isIdentRest c = true := by
  cases cs with
  | nil => cases hc
  | cons d ds =>
      rw [isIdent, Bool.and_eq_true, List.all_eq_true] at h
      rcases List.mem_cons.mp hc with rfl | hc
      · simp [isIdentRest, h.1]
      · exact h.2 c hc

theorem dot_not_mem_of_isIdent {cs : List Char} (h : isIdent cs = true) : '.' ∉ cs :=
  fun hdot => absurd (isIdentRest_of_isIdent h hdot) (by decide)

/-! ## Parts between dots -/

/-- A text, and more texts with a dot in front of each. -/
def dotted (first : List Char) (rest : List (List Char)) : List Char :=
  first ++ (rest.map ('.' :: ·)).flatten

theorem dotted_cons (first s : List Char) (rest : List (List Char)) :
    dotted first (s :: rest) = first ++ '.' :: dotted s rest := by
  simp [dotted]

/-- Every text is its parts with dots between them. -/
theorem exists_segments (cs : List Char) :
    ∃ first rest, segments cs = first :: rest ∧ cs = dotted first rest := by
  induction cs with
  | nil => exact ⟨[], [], rfl, rfl⟩
  | cons c cs ih =>
      obtain ⟨first, rest, hsegments, rfl⟩ := ih
      by_cases hc : c = '.'
      · subst hc
        exact ⟨[], first :: rest, by rw [segments, if_pos rfl, hsegments], by rw [dotted_cons]; rfl⟩
      · exact ⟨c :: first, rest, by rw [segments, if_neg hc, hsegments], rfl⟩

theorem segments_append {s : List Char} (h : '.' ∉ s) (rest : List Char) :
    segments (s ++ '.' :: rest) = s :: segments rest := by
  induction s with
  | nil => rw [List.nil_append, segments, if_pos rfl]
  | cons c cs ih =>
      rw [List.mem_cons, not_or] at h
      rw [List.cons_append, segments, if_neg (Ne.symm h.1), ih h.2]

theorem segments_of_not_mem {s : List Char} (h : '.' ∉ s) : segments s = [s] := by
  induction s with
  | nil => rfl
  | cons c cs ih =>
      rw [List.mem_cons, not_or] at h
      rw [segments, if_neg (Ne.symm h.1), ih h.2]

/-- Texts without dots are found again. -/
theorem segments_dotted {first : List Char} {rest : List (List Char)}
    (h : ∀ s ∈ first :: rest, '.' ∉ s) : segments (dotted first rest) = first :: rest := by
  induction rest generalizing first with
  | nil =>
      rw [dotted, List.map_nil, List.flatten_nil, List.append_nil]
      exact segments_of_not_mem (h first List.mem_cons_self)
  | cons s rest ih =>
      rw [dotted_cons, segments_append (h first List.mem_cons_self),
        ih fun t ht => h t (List.mem_cons_of_mem _ ht)]

theorem ascii_of_isCallbackPath {callback : String} (h : isCallbackPath callback = true) :
    ∀ c ∈ callback.toList, c.toNat < 0x80 := by
  intro c hc
  rw [isCallbackPath, List.all_eq_true] at h
  obtain ⟨first, rest, hsegments, hdotted⟩ := exists_segments callback.toList
  have hpart : c = '.' ∨ ∃ part ∈ segments callback.toList, c ∈ part := by
    rw [hdotted, dotted] at hc
    rw [hsegments]
    rcases List.mem_append.mp hc with hc | hc
    · exact .inr ⟨first, List.mem_cons_self, hc⟩
    · obtain ⟨_, hmem, hc⟩ := List.mem_flatten.mp hc
      obtain ⟨part, hpart, rfl⟩ := List.mem_map.mp hmem
      exact (List.mem_cons.mp hc).imp_right fun hc => ⟨part, List.mem_cons_of_mem _ hpart, hc⟩
  rcases hpart with rfl | ⟨part, hpart, hc⟩
  · decide
  · exact ascii_of_isIdentRest (isIdentRest_of_isIdent (h part hpart) hc)

/-! ## The grammar -/

/-- Identifiers with a dot between neighbours. -/
def callbackPath : Language Char := ident * (({['.']} : Language Char) * ident)∗

/-- What is repeated in a word of the grammar is a dot and an identifier. -/
theorem mem_kstar_dot {w : List Char} :
    w ∈ (({['.']} : Language Char) * ident)∗ ↔
      ∃ rest : List (List Char), w = (rest.map ('.' :: ·)).flatten ∧ ∀ s ∈ rest, s ∈ ident := by
  rw [Language.mem_kstar]
  constructor
  · rintro ⟨parts, rfl, hparts⟩
    induction parts with
    | nil => exact ⟨[], rfl, List.forall_mem_nil _⟩
    | cons part parts ih =>
        rw [List.forall_mem_cons] at hparts
        obtain ⟨_, rfl, s, hs, rfl⟩ := Language.mem_mul.mp hparts.1
        obtain ⟨rest, hrest, hall⟩ := ih hparts.2
        exact ⟨s :: rest, by rw [List.flatten_cons, hrest]; rfl, List.forall_mem_cons.mpr ⟨hs, hall⟩⟩
  · rintro ⟨rest, rfl, hall⟩
    refine ⟨_, rfl, fun part hpart => ?_⟩
    obtain ⟨s, hs, rfl⟩ := List.mem_map.mp hpart
    exact Language.mem_mul.mpr ⟨['.'], rfl, s, hall s hs, rfl⟩

theorem mem_callbackPath {w : List Char} :
    w ∈ callbackPath ↔ ∃ first rest, w = dotted first rest ∧ ∀ s ∈ first :: rest, s ∈ ident := by
  rw [callbackPath, Language.mem_mul]
  constructor
  · rintro ⟨first, hfirst, tail, htail, rfl⟩
    obtain ⟨rest, rfl, hall⟩ := mem_kstar_dot.mp htail
    exact ⟨first, rest, rfl, List.forall_mem_cons.mpr ⟨hfirst, hall⟩⟩
  · rintro ⟨first, rest, rfl, hall⟩
    obtain ⟨hfirst, hrest⟩ := List.forall_mem_cons.mp hall
    exact ⟨first, hfirst, _, mem_kstar_dot.mpr ⟨rest, rfl, hrest⟩, rfl⟩

theorem isCallbackPath_iff {callback : String} :
    isCallbackPath callback = true ↔ callback.toList ∈ callbackPath := by
  rw [isCallbackPath, List.all_eq_true, mem_callbackPath]
  constructor
  · intro h
    obtain ⟨first, rest, hsegments, hdotted⟩ := exists_segments callback.toList
    rw [hsegments] at h
    exact ⟨first, rest, hdotted, fun s hs => isIdent_iff.mp (h s hs)⟩
  · rintro ⟨first, rest, hdotted, hall⟩
    have hident : ∀ s ∈ first :: rest, isIdent s = true := fun s hs => isIdent_iff.mpr (hall s hs)
    rw [hdotted, segments_dotted fun s hs => dot_not_mem_of_isIdent (hident s hs)]
    exact hident

end JsonPlan.Options
