import JsonPlan.Proofs.Binary.Rounding
import Mathlib.Algebra.Order.Group.Abs

/-! What a word denotes: its significand and exponent keep to the format, and its top bit is the
sign. -/

namespace JsonPlan.Binary

/-- A finite word keeps to its format. -/
theorem Format.bounds_of_decode {f : Format} {word : Nat} {negative : Bool} {m : Nat} {q : Int}
    (h : f.decode word = .finite negative m q) :
    m < 2 ^ (f.fractionBits + 1) ∧ f.minExponent ≤ q := by
  have hfraction := Nat.mod_lt word (Nat.two_pow_pos f.fractionBits)
  rw [Nat.pow_succ]
  rw [decode] at h
  split at h
  · split at h <;> cases h
  · split at h
    · obtain ⟨-, rfl, rfl⟩ := Datum.finite.inj h
      omega
    · obtain ⟨-, rfl, rfl⟩ := Datum.finite.inj h
      omega

theorem Datum.eq_finite {d : Datum} {v : Rat} (h : d.value? = some v) :
    ∃ negative m q, d = .finite negative m q ∧ |v| = m * pow2 q ∧
      v = (if negative then -1 else 1) * (m * pow2 q) := by
  cases d with
  | nan => cases h
  | infinite negative => cases h
  | finite negative m q =>
      obtain rfl := Option.some.inj h
      have hvalue : 0 ≤ (m : Rat) * pow2 q := mul_nonneg (Nat.cast_nonneg _) (pow2_pos q).le
      refine ⟨negative, m, q, rfl, ?_⟩
      cases negative with
      | true => simp [abs_of_nonneg hvalue]
      | false => simp [abs_of_nonneg hvalue]

/-- A value other than zero has one sign. -/
theorem negative_eq {negative : Bool} {v : Rat} (h : v = (if negative then -1 else 1) * |v|)
    (hv : v ≠ 0) : negative = decide (v < 0) := by
  have hpos := abs_pos.mpr hv
  cases negative with
  | true =>
      rw [if_pos rfl] at h
      exact (decide_eq_true (by linarith)).symm
  | false =>
      rw [if_neg (by decide)] at h
      exact (decide_eq_false (by linarith)).symm

theorem Datum.value?_neg {d : Datum} {v : Rat} (h : d.value? = some v) :
    d.neg.value? = some (-v) := by
  obtain ⟨negative, m, q, rfl, -, rfl⟩ := Datum.eq_finite h
  cases negative <;> simp [neg, value?]

/-- Words that differ in their signs alone. -/
theorem Format.decode_eq_neg {f : Format} {a b : Nat}
    (hfraction : a % 2 ^ f.fractionBits = b % 2 ^ f.fractionBits)
    (hfield : a / 2 ^ f.fractionBits % 2 ^ f.exponentBits =
      b / 2 ^ f.fractionBits % 2 ^ f.exponentBits)
    (hsign : a / 2 ^ (f.fractionBits + f.exponentBits) % 2 = 1 ↔
      ¬ b / 2 ^ (f.fractionBits + f.exponentBits) % 2 = 1) :
    f.decode a = (f.decode b).neg := by
  have hflip : decide (a / 2 ^ (f.fractionBits + f.exponentBits) % 2 = 1) =
      !decide (b / 2 ^ (f.fractionBits + f.exponentBits) % 2 = 1) := by
    rw [← decide_not, decide_eq_decide]
    exact hsign
  rw [decode, decode, hfraction, hfield]
  split_ifs
  · exact congrArg Datum.infinite hflip
  · rfl
  · exact congrArg (Datum.finite · _ _) hflip
  · exact congrArg (Datum.finite · _ _) hflip

theorem Binary64.datum_neg (w : Binary64) : w.neg.datum = w.datum.neg := by
  have hbits : w.neg.bits.toNat = (w.bits.toNat + 2 ^ 63) % 2 ^ 64 := UInt64.toNat_add _ _
  have hword := w.bits.toNat_lt
  rw [datum, datum, hbits]
  apply Format.decode_eq_neg
  · change (w.bits.toNat + 2 ^ 63) % 2 ^ 64 % 2 ^ 52 = w.bits.toNat % 2 ^ 52
    omega
  · change (w.bits.toNat + 2 ^ 63) % 2 ^ 64 / 2 ^ 52 % 2 ^ 11 = w.bits.toNat / 2 ^ 52 % 2 ^ 11
    omega
  · change (w.bits.toNat + 2 ^ 63) % 2 ^ 64 / 2 ^ 63 % 2 = 1 ↔ ¬ w.bits.toNat / 2 ^ 63 % 2 = 1
    omega

end JsonPlan.Binary
