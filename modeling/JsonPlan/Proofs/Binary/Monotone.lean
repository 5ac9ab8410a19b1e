import JsonPlan.Proofs.Binary.Error

/-!
Rounding keeps order. Where two numbers are rounded at different bits, a power of two that stays
where it is stands between them.
-/

namespace JsonPlan.Binary

/-! ## Logarithms -/

theorem lt_pow2_log2 {x : Rat} (h : 0 < x) : x < pow2 (log2 x + 1) := by
  rw [log2]
  split
  · have hnum : (x.num.natAbs : Rat) < ((2 ^ (x.num.natAbs.log2 + 1) : Nat) : Rat) := by
      exact_mod_cast Nat.lt_log2_self
    have hden : ((2 ^ x.den.log2 : Nat) : Rat) ≤ x.den := by
      exact_mod_cast Nat.log2_self_le x.den_ne_zero
    have hexponent : (x.num.natAbs.log2 : Int) - x.den.log2 + 1 =
        ((x.num.natAbs.log2 + 1 : Nat) : Int) - x.den.log2 := by
      omega
    rw [pow2_eq_zpow, hexponent, zpow_sub₀ (by norm_num), zpow_natCast, zpow_natCast]
    calc x = x.num.natAbs / x.den := (natAbs_num_div_den h.le).symm
      _ < 2 ^ (x.num.natAbs.log2 + 1) / 2 ^ x.den.log2 :=
          div_lt_div₀ (by exact_mod_cast hnum) (by exact_mod_cast hden) (by positivity)
            (by positivity)
  · rename_i hbelow
    rw [Int.sub_add_cancel]
    exact not_le.mp hbelow

theorem log2_le_log2 {x y : Rat} (hx : 0 < x) (h : x ≤ y) : log2 x ≤ log2 y := by
  have hlt : pow2 (log2 x) < pow2 (log2 y + 1) :=
    (pow2_log2_le hx).trans_lt (h.trans_lt (lt_pow2_log2 (hx.trans_le h)))
  have := pow2_lt_pow2_iff.mp hlt
  omega

/-! ## Doubles -/

namespace Magnitude

theorem leastBit_le_leastBit {x y : Rat} (hx : 0 < x) (h : x ≤ y) : leastBit x ≤ leastBit y := by
  have hlog := log2_le_log2 hx h
  rw [leastBit, leastBit]
  omega

theorem pow2_eq_multiple {e bit : Int} (h : bit ≤ e) :
    pow2 e = ((2 ^ (e - bit).toNat : Nat) : Int) * pow2 bit := by
  have hsplit : e = (e - bit).toNat + bit := by omega
  conv_lhs => rw [hsplit, pow2_add]
  rfl

/-- A number stays above a power of two that is not below all bits of a double. -/
theorem pow2_le_nearest {x r : Rat} {e : Int} (he : -1074 ≤ e) (h : pow2 e ≤ x)
    (hr : nearest x = .finite r) : pow2 e ≤ r := by
  have hpos := (pow2_pos e).trans_le h
  have hlog : e < log2 x + 1 := pow2_lt_pow2_iff.mp (h.trans_lt (lt_pow2_log2 hpos))
  have hbit : leastBit x ≤ log2 x := by
    rw [leastBit]
    omega
  calc pow2 e ≤ pow2 (log2 x) := pow2_le_pow2 (by omega)
    _ ≤ r := le_nearest hr (pow2_log2_le hpos) (pow2_eq_multiple hbit)

/-- Two numbers that are rounded at different bits have a power of two between them. -/
theorem nearest_mono_of_leastBit_lt {x y r s : Rat} (hx : 0 < x) (h : x ≤ y)
    (hbit : leastBit x < leastBit y) (hr : nearest x = .finite r) (hs : nearest y = .finite s) :
    r ≤ s := by
  have hlog : log2 x < log2 y ∧ leastBit x ≤ log2 y ∧ -1074 ≤ log2 y := by
    rw [leastBit, leastBit] at hbit
    rw [leastBit]
    omega
  have hbetween : x ≤ pow2 (log2 y) :=
    (lt_pow2_log2 hx).le.trans (pow2_le_pow2 (by omega))
  calc r ≤ pow2 (log2 y) := nearest_le hr hbetween (pow2_eq_multiple hlog.2.1)
    _ ≤ s := pow2_le_nearest hlog.2.2 (pow2_log2_le (hx.trans_le h)) hs

theorem nearest_mono {x y r s : Rat} (hx : 0 ≤ x) (h : x ≤ y) (hr : nearest x = .finite r)
    (hs : nearest y = .finite s) : r ≤ s := by
  rcases hx.eq_or_lt with rfl | hpos
  · rw [nearest_zero] at hr
    obtain rfl := Magnitude.finite.inj hr
    exact nearest_nonneg hs h
  · rcases (leastBit_le_leastBit hpos h).lt_or_eq with hlt | heq
    · exact nearest_mono_of_leastBit_lt hpos h hlt hr hs
    · have hunit := pow2_pos (leastBit y)
      have hround := roundEven_mono (div_le_div_of_nonneg_right h hunit.le)
      rw [nearest_eq_finite hr, nearest_eq_finite hs, heq]
      exact mul_le_mul_of_nonneg_right (by exact_mod_cast hround) hunit.le

theorem exceeds_of_le {m : Magnitude} {x y : Rat} (h : x ≤ y) (hy : m.exceeds y = true) :
    m.exceeds x = true := by
  cases m with
  | infinite => rfl
  | finite z =>
      rw [exceeds, decide_eq_true_iff] at hy ⊢
      exact h.trans_lt hy

end Magnitude
end JsonPlan.Binary
