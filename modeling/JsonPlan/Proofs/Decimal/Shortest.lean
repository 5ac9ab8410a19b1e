import JsonPlan.Decimal.Shortest
import JsonPlan.Proofs.Binary.Rounding
import JsonPlan.Proofs.Decimal.Numeral

/-! The shortest decimal of a large float is a whole number. -/

namespace JsonPlan.Decimal

open Binary

/-! ## Magnitudes -/

theorem pow_le_of_digitCount {n : Nat} (h : 0 < n) : 10 ^ (digitCount n - 1) ≤ n := by
  induction n using digits_induction with
  | single n hn =>
      rw [digitCount, digits_of_lt hn]
      exact h
  | more n hn ih =>
      have hrest := ih (by omega)
      have hcount : digitCount n - 1 = digitCount (n / 10) - 1 + 1 := by
        have hne := List.length_pos_iff.mpr (digits_ne_nil (n / 10))
        rw [digitCount, digits_of_ge hn, List.length_append, List.length_singleton, digitCount]
        omega
      rw [hcount, Nat.pow_succ]
      omega

theorem lt_pow_digitCount (n : Nat) : n < 10 ^ digitCount n := by
  induction n using digits_induction with
  | single n hn =>
      rw [digitCount, digits_of_lt hn]
      exact hn
  | more n hn ih =>
      rw [digitCount] at ih ⊢
      rw [digits_of_ge hn, List.length_append, List.length_singleton, Nat.pow_succ]
      omega

theorem pow10_eq_zpow (e : Int) : pow10 e = (10 : Rat) ^ e := by
  cases e with
  | ofNat n => simp [pow10]
  | negSucc n => simp [pow10, Rat.mkRat_eq_div, zpow_negSucc]

theorem pow10_log10_le {x : Rat} (h : 1 ≤ x) : pow10 (log10 x) ≤ x := by
  have hfloor : 1 ≤ x.floor := Rat.le_floor_iff.mpr (by simpa using h)
  have hpow := pow_le_of_digitCount (n := x.floor.natAbs) (by omega)
  have hexponent : (digitCount x.floor.natAbs : Int) - 1 =
      ((digitCount x.floor.natAbs - 1 : Nat) : Int) := by
    have hne := List.length_pos_iff.mpr (digits_ne_nil x.floor.natAbs)
    rw [digitCount]
    omega
  rw [log10, if_pos h, hexponent]
  calc pow10 ((digitCount x.floor.natAbs - 1 : Nat) : Int)
      = ((10 ^ (digitCount x.floor.natAbs - 1) : Nat) : Rat) := rfl
    _ ≤ ((x.floor.natAbs : Nat) : Rat) := by exact_mod_cast hpow
    _ = x.floor := by
        rw [← Int.cast_natCast, Int.natAbs_of_nonneg (by omega)]
    _ ≤ x := Rat.floor_le x

theorem le_log10 {x : Rat} {k : Nat} (h : ((10 ^ k : Nat) : Rat) ≤ x) : (k : Int) ≤ log10 x := by
  have hone : 1 ≤ x := by
    refine le_trans ?_ h
    exact_mod_cast Nat.one_le_pow k 10 (by decide)
  have hfloor : ((10 ^ k : Nat) : Int) ≤ x.floor := Rat.le_floor_iff.mpr (by exact_mod_cast h)
  have hlt : 10 ^ k < 10 ^ digitCount x.floor.natAbs :=
    lt_of_le_of_lt (by omega) (lt_pow_digitCount x.floor.natAbs)
  have hcount := (Nat.pow_lt_pow_iff_right (by decide)).mp hlt
  rw [log10, if_pos hone]
  omega

/-! ## The grid -/

/-- A whole number of at least one unit, if it has a value. -/
structure Scientific.Whole (s : Scientific) : Prop where
  exponent : 0 ≤ s.exponent
  coefficient : 0 < s.coefficient

theorem Scientific.Whole.strip {s : Scientific} (h : s.Whole) : s.strip.Whole := by
  fun_induction Scientific.strip s with
  | case1 s hzero ih =>
      have hexponent := h.exponent
      exact ih ⟨by simp only; omega, by simp only; omega⟩
  | case2 s _ => exact h

theorem whole_of_gridHit? {i : Interval} {v : Rat} {e : Int} {s : Scientific} (he : 0 ≤ e)
    (hv : pow10 e ≤ v) (h : gridHit? i v e = some s) : s.Whole := by
  have hpow : 0 < pow10 e := by
    rw [pow10_eq_zpow]
    positivity
  have hbelow : 1 ≤ (v / pow10 e).floor :=
    Rat.le_floor_iff.mpr (by rw [Int.cast_one, le_div_iff₀ hpow, one_mul]; exact hv)
  have hlower : Scientific.Whole ⟨(v / pow10 e).floor.natAbs, e⟩ := ⟨he, by simp only; omega⟩
  have hupper : Scientific.Whole ⟨(v / pow10 e).floor.natAbs + 1, e⟩ :=
    ⟨he, Nat.succ_pos _⟩
  rw [gridHit?] at h
  split at h
  · split_ifs at h <;> cases h <;> assumption
  · cases h
    exact hlower
  · cases h
    exact hupper
  · cases h

theorem whole_shortest {f : Format} {m : Nat} {q : Int}
    (h : ((10 ^ 18 : Nat) : Rat) ≤ m * pow2 q) : (shortest f m q).Whole := by
  have htop := le_log10 h
  have hone : (1 : Rat) ≤ m * pow2 q := le_trans (by norm_num) h
  have hpow := pow10_log10_le hone
  rw [shortest]
  apply Scientific.Whole.strip
  cases hfind : (List.range maxDigits).findSome? fun k =>
      gridHit? (Interval.around f m q) (m * pow2 q) (log10 (m * pow2 q) - (k : Nat)) with
  | none =>
      refine ⟨le_rfl, Nat.pos_of_ne_zero ?_⟩
      rintro rfl
      norm_num at hone
  | some s =>
      obtain ⟨k, hk, hhit⟩ := List.exists_of_findSome?_eq_some hfind
      rw [List.mem_range, maxDigits] at hk
      refine whole_of_gridHit? (by omega) (le_trans ?_ hpow) hhit
      rw [pow10_eq_zpow, pow10_eq_zpow]
      exact zpow_le_zpow_right₀ (by norm_num) (by omega)

/-! ## Texts -/

theorem toList_join_zeroChunks (n : Nat) :
    (String.join (zeroChunks n)).toList = List.replicate n '0' := by
  have hrows := toList_join_replicate (n / 64) 64
  rw [String.toList_join] at hrows
  rw [zeroChunks, String.toList_join, List.flatMap_append, hrows]
  by_cases hn : n % 64 = 0
  · rw [if_pos hn, List.flatMap_nil, List.append_nil]
    congr 1
    omega
  · rw [if_neg hn, List.flatMap_singleton, String.toList_ofList, List.replicate_append_replicate]
    congr 1
    omega

/-- Zeros behind a positive numeral shift it. -/
theorem digits_shift {n : Nat} (h : 0 < n) (k : Nat) :
    digits (n * 10 ^ k) = digits n ++ List.replicate k '0' := by
  induction k with
  | zero => simp
  | succ k ih =>
      have hpos : 0 < 10 ^ k := Nat.pow_pos (by decide)
      have hge : 10 ≤ n * 10 ^ (k + 1) := by
        rw [Nat.pow_succ]
        nlinarith
      have hdiv : n * 10 ^ (k + 1) / 10 = n * 10 ^ k := by
        rw [Nat.pow_succ, ← Nat.mul_assoc, Nat.mul_div_cancel _ (by decide)]
      have hmod : n * 10 ^ (k + 1) % 10 = 0 := by
        rw [Nat.pow_succ, ← Nat.mul_assoc, Nat.mul_mod_left]
      rw [digits_of_ge hge, hdiv, hmod, ih, List.replicate_succ', List.append_assoc]
      rfl

theorem Scientific.Whole.toList_join_chunks {s : Scientific} (h : s.Whole) :
    (String.join s.chunks).toList = digits (s.coefficient * 10 ^ s.exponent.toNat) := by
  have habs : s.exponent.natAbs = s.exponent.toNat := by
    have hexponent := h.exponent
    omega
  rw [digits_shift h.coefficient, chunks, if_pos h.exponent, habs, String.join_cons,
    String.toList_append, toList_join_zeroChunks, String.toList_ofList]

/-- A large float is written as the digits of a whole number. -/
theorem toList_join_naturalChunks {f : Format} {m : Nat} {q : Int}
    (h : ((10 ^ 18 : Nat) : Rat) ≤ m * pow2 q) (negative : Bool) :
    (String.join (naturalChunks f (.finite negative m q))).toList =
      (if negative then ['-'] else []) ++
        digits ((shortest f m q).coefficient * 10 ^ (shortest f m q).exponent.toNat) := by
  have hm : m ≠ 0 := by
    rintro rfl
    norm_num at h
  have hchunks := (whole_shortest (f := f) h).toList_join_chunks
  rw [String.toList_join] at hchunks
  rw [naturalChunks, if_neg hm, String.toList_join, List.flatMap_append, hchunks]
  cases negative <;> simp

end JsonPlan.Decimal
