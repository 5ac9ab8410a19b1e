import JsonPlan.Proofs.Decimal.Numeral
import JsonPlan.Proofs.Json.Reading

/-! Numerals and decimals as numbers of a document. -/

namespace JsonPlan.Json

open Decimal

/-! ## Rows of digits -/

theorem readDigits_append {ds rest : List Char} (hne : ds ≠ []) (hds : ∀ c ∈ ds, isDigit c = true)
    (hrest : ∀ c, rest.head? = some c → isDigit c = false) :
    readDigits (ds ++ rest) = some (ds, rest) := by
  have htake : rest.takeWhile isDigit = [] := by
    cases rest with
    | nil => rfl
    | cons c rest => exact List.takeWhile_cons_of_neg (by simp [hrest c rfl])
  have hdrop : rest.dropWhile isDigit = rest := by
    cases rest with
    | nil => rfl
    | cons c rest => exact List.dropWhile_cons_of_neg (by simp [hrest c rfl])
  rw [readDigits, List.takeWhile_append_of_pos hds, List.dropWhile_append_of_pos hds, htake,
    hdrop, List.append_nil]
  cases ds with
  | nil => exact absurd rfl hne
  | cons => rfl

theorem readWhole_digits (n : Nat) {rest : List Char}
    (hrest : ∀ c, rest.head? = some c → isDigit c = false) :
    readWhole (digits n ++ rest) = some (digits n, rest) := by
  rcases Nat.eq_zero_or_pos n with rfl | hn
  · have hzero : digits 0 = ['0'] := digits_of_lt (by decide)
    rw [hzero]
    rfl
  · have hread := readDigits_append (digits_ne_nil n) (fun c => isDigit_of_mem_digits) hrest
    cases hdigits : digits n with
    | nil => exact absurd hdigits (digits_ne_nil n)
    | cons c cs =>
        have hc := head?_digits hn
        rw [hdigits] at hread hc
        rw [readWhole.eq_def]
        split
        · rename_i heq
          simp_all
        · exact hread

theorem readExponent_of_stops {rest : List Char} (h : Stops rest) :
    readExponent rest = some (0, rest) := by
  cases rest with
  | nil => rfl
  | cons c rest =>
      obtain ⟨_, _, he, hE⟩ := h c rfl
      simp [readExponent, he, hE]

/-! ## Numbers -/

theorem scaled_zero (n : Number) : n.scaled 0 = n := by
  have hneg : ((0 : Int) - n.places).toNat = 0 := by omega
  have hpos : ((n.places : Int) - 0).toNat = n.places := by omega
  rw [Number.scaled, hneg, hpos, Int.pow_zero, Int.mul_one]

theorem readUnsigned_digits (n : Nat) {rest : List Char} (h : Stops rest) :
    readUnsigned (digits n ++ rest) = some (⟨n, 0⟩, rest) := by
  have hfraction : readFraction rest = some ([], rest) := by
    cases rest with
    | nil => rfl
    | cons c rest =>
        have hc := (h c rfl).2.1
        rw [readFraction.eq_def]
        split
        · simp_all
        · rfl
  rw [readUnsigned, readWhole_digits n fun c hc => (h c hc).1]
  simp [hfraction, readExponent_of_stops h, scaled_zero, digitsValue_digits]

/-- A row of digits in front of a point and one behind it. -/
theorem readUnsigned_point (n : Nat) {ds rest : List Char} (hne : ds ≠ [])
    (hds : ∀ c ∈ ds, isDigit c = true) (h : Stops rest) :
    readUnsigned (digits n ++ ('.' :: (ds ++ rest))) =
      some (⟨(n * 10 ^ ds.length + digitsValue ds : Nat), ds.length⟩, rest) := by
  have hpoint : ∀ c, ('.' :: (ds ++ rest)).head? = some c → isDigit c = false := by
    intro c hc
    obtain rfl : '.' = c := by simpa using hc
    decide
  have hfraction : readFraction ('.' :: (ds ++ rest)) = some (ds, rest) :=
    readDigits_append hne hds fun c hc => (h c hc).1
  rw [readUnsigned, readWhole_digits n hpoint]
  simp [hfraction, readExponent_of_stops h, scaled_zero, digitsValue_append, digitsValue_digits]

/-- A value that begins with a digit or a sign is a number. -/
theorem readValue_number {c : Char} (h : isDigit c = true ∨ c = '-') (fuel : Nat)
    (cs : List Char) :
    readValue (fuel + 1) (c :: cs) = (readNumber (c :: cs)).map fun n => (.number n.1, n.2) := by
  have hne : ∀ d ∈ ['n', 't', 'f', '"', '[', '\x7b'], c ≠ d := by
    rintro d hd rfl
    simp only [List.mem_cons, List.not_mem_nil, or_false] at hd
    rcases hd with rfl | rfl | rfl | rfl | rfl | rfl <;> simp [isDigit] at h
  rw [readValue.eq_def]
  split <;> simp_all

/-- The characters of a number without a sign. -/
def Spells (cs : List Char) (n : Number) : Prop :=
  (∃ c ∈ cs.head?, isDigit c = true) ∧
    ∀ rest, Stops rest → readUnsigned (cs ++ rest) = some (n, rest)

theorem head?_digits_isDigit (n : Nat) (rest : List Char) :
    ∃ c ∈ (digits n ++ rest).head?, isDigit c = true := by
  cases hdigits : digits n with
  | nil => exact absurd hdigits (digits_ne_nil n)
  | cons c cs => exact ⟨c, rfl, isDigit_of_mem_digits (n := n) (by simp [hdigits])⟩

theorem spells_digits (n : Nat) : Spells (digits n) ⟨n, 0⟩ :=
  ⟨by simpa using head?_digits_isDigit n [], fun _ h => readUnsigned_digits n h⟩

theorem spells_point (n : Nat) {ds : List Char} (hne : ds ≠ [])
    (hds : ∀ c ∈ ds, isDigit c = true) :
    Spells (digits n ++ '.' :: ds) ⟨(n * 10 ^ ds.length + digitsValue ds : Nat), ds.length⟩ := by
  refine ⟨head?_digits_isDigit n _, fun rest h => ?_⟩
  rw [List.append_assoc]
  exact readUnsigned_point n hne hds h

namespace Spells

variable {cs : List Char} {n : Number} {text : String}

theorem reads (h : Spells cs n) (htext : text.toList = cs) : Reads text (.number n) := by
  intro rest hrest fuel hfuel
  obtain ⟨⟨c, hc, hdigit⟩, hread⟩ := h
  cases cs with
  | nil => cases hc
  | cons d ds =>
      obtain rfl : d = c := by simpa using hc
      rw [htext] at hfuel ⊢
      obtain ⟨fuel, rfl, _⟩ := exists_fuel hfuel
      have hsign : readNumber (d :: (ds ++ rest)) = readUnsigned (d :: (ds ++ rest)) := by
        rw [readNumber.eq_def]
        split
        · simp_all [isDigit]
        · rfl
      rw [List.cons_append, readValue_number (.inl hdigit), hsign, ← List.cons_append,
        hread rest hrest]
      rfl

theorem reads_neg (h : Spells cs n) (htext : text.toList = '-' :: cs) :
    Reads text (.number ⟨-n.mantissa, n.places⟩) := by
  intro rest hrest fuel hfuel
  rw [htext] at hfuel ⊢
  obtain ⟨fuel, rfl, _⟩ := exists_fuel hfuel
  rw [List.cons_append, readValue_number (.inr rfl), readNumber, h.2 rest hrest]
  rfl

/-- A number behind the sign that a flag asks for. -/
theorem reads_signed (h : Spells cs n) (negative : Bool)
    (htext : text.toList = (if negative then ['-'] else []) ++ cs) :
    Reads text (.number ⟨(if negative then -1 else 1) * n.mantissa, n.places⟩) := by
  cases negative with
  | true =>
      rw [if_pos rfl, Int.neg_one_mul]
      exact h.reads_neg htext
  | false =>
      rw [if_neg Bool.false_ne_true, Int.one_mul]
      exact h.reads htext

end Spells

theorem reads_int (v : Int) : Reads (intNumeral v) (.number ⟨v, 0⟩) := by
  have hspells := spells_digits v.natAbs
  by_cases hv : v < 0
  · have htext : (intNumeral v).toList = '-' :: digits v.natAbs := by
      simp [intNumeral, intChunks, hv, numeral]
    have hneg := hspells.reads_neg htext
    rwa [show -((v.natAbs : Nat) : Int) = v by omega] at hneg
  · have htext : (intNumeral v).toList = digits v.natAbs := by
      simp [intNumeral, intChunks, hv, numeral]
    have hpos := hspells.reads htext
    rwa [show ((v.natAbs : Nat) : Int) = v by omega] at hpos

end JsonPlan.Json
