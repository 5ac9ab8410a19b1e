import JsonPlan.Decimal.Numeral
import JsonPlan.Json.Reader
import Mathlib.Data.List.Induction
import Mathlib.Tactic.Ring

/-! Numerals: their digits, their length and their value. -/

namespace JsonPlan.Decimal

open Json (isDigit digitsValue)

/-! ## Digits -/

theorem toNat_digitChar {d : Nat} (h : d < 10) : (digitChar d).toNat = 48 + d := by
  revert d
  decide

theorem isDigit_digitChar {d : Nat} (h : d < 10) : isDigit (digitChar d) = true := by
  revert d
  decide

theorem digitChar_ne_zero {d : Nat} (h : d < 10) (hd : 0 < d) : digitChar d ≠ '0' := by
  revert d
  decide

theorem digits_of_lt {n : Nat} (h : n < 10) : digits n = [digitChar n] := by
  rw [digits, if_pos h]

theorem digits_of_ge {n : Nat} (h : 10 ≤ n) :
    digits n = digits (n / 10) ++ [digitChar (n % 10)] := by
  rw [digits, if_neg (by omega)]

theorem digits_ne_nil (n : Nat) : digits n ≠ [] := by
  rw [digits]
  split <;> simp

/-- Induction from a number to the one with another digit at its end. -/
theorem digits_induction {motive : Nat → Prop} (single : ∀ n, n < 10 → motive n)
    (more : ∀ n, 10 ≤ n → motive (n / 10) → motive n) (n : Nat) : motive n := by
  induction n using Nat.strong_induction_on with
  | _ n ih =>
      by_cases hn : n < 10
      · exact single n hn
      · exact more n (by omega) (ih (n / 10) (by omega))

theorem isDigit_of_mem_digits {n : Nat} {c : Char} (h : c ∈ digits n) : isDigit c = true := by
  induction n using digits_induction with
  | single n hn =>
      rw [digits_of_lt hn, List.mem_singleton] at h
      rw [h]
      exact isDigit_digitChar hn
  | more n hn ih =>
      rw [digits_of_ge hn, List.mem_append, List.mem_singleton] at h
      rcases h with h | rfl
      · exact ih h
      · exact isDigit_digitChar (Nat.mod_lt n (by decide))

theorem mem_intNumeral {v : Int} {c : Char} (h : c ∈ (intNumeral v).toList) :
    c = '-' ∨ isDigit c = true := by
  have hdigits : c ∈ (numeral v.natAbs).toList → isDigit c = true := by
    rw [numeral, String.toList_ofList]
    exact isDigit_of_mem_digits
  rw [intNumeral, intChunks] at h
  split at h
  · simp only [String.join_cons, String.join_nil, String.toList_append, List.mem_append] at h
    rcases h with h | h | h
    · left
      simpa using h
    · exact .inr (hdigits h)
    · cases h
  · simp only [String.join_cons, String.join_nil, String.toList_append, List.mem_append] at h
    rcases h with h | h
    · exact .inr (hdigits h)
    · cases h

/-- No zero leads a positive numeral. -/
theorem head?_digits {n : Nat} (h : 0 < n) : (digits n).head? ≠ some '0' := by
  induction n using digits_induction with
  | single n hn =>
      rw [digits_of_lt hn]
      simpa using digitChar_ne_zero hn h
  | more n hn ih =>
      have hlead := ih (by omega)
      rw [digits_of_ge hn, List.head?_append]
      cases hhead : (digits (n / 10)).head? with
      | none => exact absurd (List.head?_eq_none_iff.mp hhead) (digits_ne_nil _)
      | some c => rwa [hhead] at hlead

theorem digitCount_le {n k : Nat} (hk : 0 < k) (h : n < 10 ^ k) : digitCount n ≤ k := by
  induction n using digits_induction generalizing k with
  | single n hn =>
      rw [digitCount, digits_of_lt hn]
      exact hk
  | more n hn ih =>
      obtain ⟨k, rfl⟩ := Nat.exists_eq_add_one_of_ne_zero (Nat.ne_zero_of_lt hk)
      have hk' : 0 < k := by
        rcases Nat.eq_zero_or_pos k with rfl | hk'
        · omega
        · exact hk'
      have hrest := ih hk' (by rw [Nat.pow_succ] at h; omega)
      rw [digitCount] at hrest ⊢
      rw [digits_of_ge hn, List.length_append, List.length_singleton]
      omega

/-! ## Values -/

theorem digitsValue_append (as bs : List Char) :
    digitsValue (as ++ bs) = digitsValue as * 10 ^ bs.length + digitsValue bs := by
  induction bs using List.reverseRecOn with
  | nil => simp [digitsValue]
  | append_singleton bs b ih =>
      have hstep (cs : List Char) :
          digitsValue (cs ++ [b]) = digitsValue cs * 10 + (b.toNat - 48) := by
        simp [digitsValue]
      rw [← List.append_assoc, hstep, hstep, ih, List.length_append, List.length_singleton,
        Nat.pow_succ]
      ring

theorem digitsValue_digits (n : Nat) : digitsValue (digits n) = n := by
  induction n using digits_induction with
  | single n hn =>
      rw [digits_of_lt hn]
      simp [digitsValue, toNat_digitChar hn]
  | more n hn ih =>
      rw [digits_of_ge hn, digitsValue_append, ih]
      simp [digitsValue, toNat_digitChar (Nat.mod_lt n (by decide : 0 < 10))]
      omega

theorem digitsValue_replicate_zero (n : Nat) : digitsValue (List.replicate n '0') = 0 := by
  induction n with
  | zero => rfl
  | succ n ih =>
      rw [List.replicate_succ', digitsValue_append, ih]
      rfl

/-! ## Fields -/

theorem isDigit_of_mem_padded {width n : Nat} {c : Char} (h : c ∈ (padded width n).toList) :
    isDigit c = true := by
  rw [padded, String.toList_ofList, List.mem_append] at h
  rcases h with h | h
  · rw [List.eq_of_mem_replicate h]
    rfl
  · exact isDigit_of_mem_digits h

theorem toList_join_replicate (n k : Nat) :
    (String.join (List.replicate n (.ofList (List.replicate k '0')))).toList =
      List.replicate (n * k) '0' := by
  rw [String.toList_join, List.flatMap_def, List.map_replicate, String.toList_ofList,
    List.flatten_replicate_replicate]

end JsonPlan.Decimal
