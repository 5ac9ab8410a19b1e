import JsonPlan.Calendar.Instant
import JsonPlan.Decimal.Fixed
import JsonPlan.Guid
import JsonPlan.Proofs.Decimal.Numeral

/-! Texts that stand for themselves between quotes: numerals, identifiers and dates. -/

namespace JsonPlan

/-- Printable ASCII, without quotes and backslashes. -/
def IsPlain (c : Char) : Prop := 0x20 ≤ c.toNat ∧ c.toNat < 0x80 ∧ c ≠ '"' ∧ c ≠ '\\'

instance (c : Char) : Decidable (IsPlain c) := inferInstanceAs (Decidable (_ ∧ _))

def Plain (s : String) : Prop := ∀ c ∈ s.toList, IsPlain c

@[simp] theorem plain_append {s t : String} : Plain (s ++ t) ↔ Plain s ∧ Plain t := by
  simp [Plain, or_imp, forall_and]

instance (s : String) : Decidable (Plain s) :=
  decidable_of_iff (s.toList.all (fun c => decide (IsPlain c)) = true) (by simp [Plain])

theorem isPlain_of_isDigit {c : Char} (h : Json.isDigit c = true) : IsPlain c := by
  simp only [Json.isDigit, Bool.and_eq_true, decide_eq_true_eq, Char.le_def,
    UInt32.le_iff_toNat_le] at h
  have hlow : 48 ≤ c.toNat := h.1
  have hhigh : c.toNat ≤ 57 := h.2
  refine ⟨by omega, by omega, ?_, ?_⟩
  · rintro rfl
    exact absurd hlow (by decide)
  · rintro rfl
    exact absurd hhigh (by decide)

theorem plain_join {chunks : List String} (h : ∀ s ∈ chunks, Plain s) :
    Plain (String.join chunks) := by
  intro c hc
  rw [String.toList_join, List.mem_flatMap] at hc
  obtain ⟨s, hs, hc⟩ := hc
  exact h s hs c hc

/-! ## Numerals -/

namespace Decimal

theorem plain_digits {cs : List Char} (h : ∀ c ∈ cs, Json.isDigit c = true) :
    Plain (.ofList cs) := by
  intro c hc
  rw [String.toList_ofList] at hc
  exact isPlain_of_isDigit (h c hc)

theorem plain_numeral (n : Nat) : Plain (numeral n) :=
  plain_digits fun _ => isDigit_of_mem_digits

theorem plain_padded (width n : Nat) : Plain (padded width n) :=
  fun _ hc => isPlain_of_isDigit (isDigit_of_mem_padded hc)

theorem plain_intNumeral (v : Int) : Plain (intNumeral v) := by
  intro c hc
  rcases mem_intNumeral hc with rfl | hdigit
  · decide
  · exact isPlain_of_isDigit hdigit

/-! ## Floats -/

theorem plain_zeros (n : Nat) : Plain (.ofList (List.replicate n '0')) :=
  plain_digits fun c hc => by rw [List.eq_of_mem_replicate hc]; decide

theorem plain_of_mem_zeroChunks {n : Nat} {s : String} (h : s ∈ zeroChunks n) : Plain s := by
  rw [zeroChunks, List.mem_append] at h
  rcases h with h | h
  · rw [List.eq_of_mem_replicate h]
    exact plain_zeros 64
  · split at h
    · cases h
    · rw [List.mem_singleton.mp h]
      exact plain_zeros _

theorem plain_of_mem_scientific {x : Scientific} {s : String} (h : s ∈ x.chunks) : Plain s := by
  have hdigits := fun c => isDigit_of_mem_digits (n := x.coefficient) (c := c)
  have hpoint : Plain "." := by decide
  have hzero : Plain "0." := by decide
  rw [Scientific.chunks] at h
  split at h
  · rcases List.mem_cons.mp h with rfl | h
    · exact plain_digits hdigits
    · exact plain_of_mem_zeroChunks h
  · simp only at h
    split at h
    · simp only [List.mem_cons, List.not_mem_nil, or_false] at h
      rcases h with rfl | rfl | rfl
      · exact plain_digits fun c hc => hdigits c (List.mem_of_mem_take hc)
      · exact hpoint
      · exact plain_digits fun c hc => hdigits c (List.mem_of_mem_drop hc)
    · simp only [List.mem_cons, List.mem_append, List.not_mem_nil, or_false] at h
      rcases h with rfl | h | rfl
      · exact hzero
      · exact plain_of_mem_zeroChunks h
      · exact plain_digits hdigits

theorem plain_of_mem_sign {negative : Bool} {s : String}
    (h : s ∈ if negative then ["-"] else []) : Plain s := by
  cases negative with
  | true =>
      obtain rfl := List.mem_singleton.mp h
      decide
  | false => cases h

theorem plain_of_mem_naturalChunks {f : Binary.Format} {d : Binary.Datum} {s : String}
    (h : s ∈ naturalChunks f d) : Plain s := by
  cases d with
  | nan =>
      obtain rfl := List.mem_singleton.mp h
      decide
  | infinite negative =>
      rcases List.mem_append.mp h with h | h
      · exact plain_of_mem_sign h
      · obtain rfl := List.mem_singleton.mp h
        decide
  | finite negative m q =>
      rcases List.mem_append.mp h with h | h
      · exact plain_of_mem_sign h
      · split at h
        · obtain rfl := List.mem_singleton.mp h
          decide
        · exact plain_of_mem_scientific h

theorem plain_of_mem_split {x : Split} {negative : Bool} {s : String}
    (h : s ∈ x.chunks negative) : Plain s := by
  rw [Split.chunks] at h
  split at h
  · obtain rfl := List.mem_singleton.mp h
    decide
  · rcases List.mem_append.mp h with h | h
    · exact plain_of_mem_sign h
    · rcases List.mem_cons.mp h with rfl | h
      · exact plain_numeral x.whole
      · split at h
        · cases h
        · simp only [List.mem_cons, List.mem_append, List.not_mem_nil, or_false] at h
          rcases h with rfl | h | rfl
          · decide
          · rw [List.eq_of_mem_replicate h]
            decide
          · exact plain_numeral x.fraction

/-- Whatever a float is, not a number included, its text is plain. -/
theorem plain_fixed (p : Precision) (d : Binary.Datum) : Plain (fixed p d) := by
  apply plain_join
  intro s h
  rw [fixedChunks.eq_def] at h
  split at h
  · exact plain_of_mem_naturalChunks h
  · exact plain_of_mem_naturalChunks h
  · simp only at h
    split_ifs at h
    · obtain rfl := List.mem_singleton.mp h
      decide
    · exact plain_of_mem_naturalChunks h
    · exact plain_of_mem_split h

end Decimal

/-! ## Identifiers -/

theorem isPlain_hexDigit {n : Nat} (h : n < 16) : IsPlain (Json.hexDigit n) := by
  revert n
  decide

theorem Guid.plain_text (g : Guid) : Plain g.text := by
  have hdigits : ∀ c ∈ g.hexDigits, IsPlain c := by
    intro c hc
    rw [hexDigits, List.mem_map] at hc
    obtain ⟨i, _, rfl⟩ := hc
    exact isPlain_hexDigit (Nat.mod_lt _ (by decide))
  have hhyphen : IsPlain '-' := by decide
  intro c hc
  simp only [text, String.toList_ofList, List.mem_append, List.mem_cons] at hc
  rcases hc with hc | rfl | hc | rfl | hc | rfl | hc | rfl | hc
  · exact hdigits c (List.mem_of_mem_take hc)
  · exact hhyphen
  · exact hdigits c (List.mem_of_mem_drop (List.mem_of_mem_take hc))
  · exact hhyphen
  · exact hdigits c (List.mem_of_mem_drop (List.mem_of_mem_take hc))
  · exact hhyphen
  · exact hdigits c (List.mem_of_mem_drop (List.mem_of_mem_take hc))
  · exact hhyphen
  · exact hdigits c (List.mem_of_mem_drop hc)

/-! ## Dates -/

namespace Calendar

open Decimal

theorem plain_yearText (y : Int) : Plain (Instant.yearText y) := by
  rw [Instant.yearText]
  split
  · exact plain_padded 4 y.natAbs
  · rw [plain_append]
    refine ⟨?_, plain_padded 4 y.natAbs⟩
    split <;> decide

theorem plain_fractionText (nanos : Nat) : Plain (Instant.fractionText nanos) := by
  have hpoint : Plain "." := by decide
  rw [Instant.fractionText]
  split_ifs
  · decide
  · exact plain_append.mpr ⟨hpoint, plain_padded 3 _⟩
  · exact plain_append.mpr ⟨hpoint, plain_padded 6 _⟩
  · exact plain_append.mpr ⟨hpoint, plain_padded 9 _⟩

theorem plain_name {names : List String} (h : ∀ s ∈ names, Plain s) (i : Nat) :
    Plain (names[i]?.getD "") := by
  cases hname : names[i]? with
  | none => decide
  | some s => exact h s (List.mem_of_getElem? hname)

theorem plain_iso (t : Instant) : Plain t.iso := by
  have hyphen : Plain "-" := by decide
  have colon : Plain ":" := by decide
  have hT : Plain "T" := by decide
  have hZ : Plain "Z" := by decide
  simp [Instant.iso, Instant.Clock.dateText, Instant.Clock.timeText, plain_padded,
    plain_yearText, plain_fractionText, hyphen, colon, hT, hZ]

theorem plain_rfc1123 (t : Instant) : Plain t.rfc1123 := by
  have colon : Plain ":" := by decide
  have blank : Plain " " := by decide
  have comma : Plain ", " := by decide
  have zone : Plain " GMT" := by decide
  have days : ∀ s ∈ weekdayNames, Plain s := by decide
  have months : ∀ s ∈ monthNames, Plain s := by decide
  simp [Instant.rfc1123, Instant.Clock.timeText, plain_padded, plain_yearText,
    plain_name days, plain_name months, colon, blank, comma, zone]

end Calendar
end JsonPlan
