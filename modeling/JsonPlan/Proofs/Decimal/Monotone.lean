import JsonPlan.Proofs.Binary.Monotone
import JsonPlan.Proofs.Decimal.Accuracy

/-!
A greater float is not written as a smaller decimal. Between two whole numbers every step is
monotone. A whole number is never passed, so that nothing can invert two values that one separates,
whatever their digits are. What is written as zero lies below all that is not.
-/

namespace JsonPlan.Decimal

open Binary Json

/-! ## Between whole numbers -/

namespace Split

theorem value_nonneg (s : Split) : 0 ≤ s.value := by
  rw [value]
  positivity

/-- Neither whole number next to a value is passed. -/
theorem value_cut_bounds {v : Rat} {scale : Nat} (hv : 0 ≤ v) (hscale : scale ≤ 17) :
    v.floor ≤ (cut v scale).value ∧ (cut v scale).value ≤ v.floor + 1 := by
  have hpos : (0 : Rat) < ((10 ^ scale : Nat) : Rat) := by positivity
  have hfraction : ((cut v scale).fraction : Rat) / ((10 ^ scale : Nat) : Rat) ≤ 1 := by
    rw [div_le_one hpos]
    exact_mod_cast fraction_cut_le hscale
  have hnonneg : 0 ≤ ((cut v scale).fraction : Rat) / ((10 ^ scale : Nat) : Rat) := by positivity
  have hvalue : (cut v scale).value =
      v.floor + (cut v scale).fraction / ((10 ^ scale : Nat) : Rat) := by
    rw [← natAbs_floor hv]
    rfl
  rw [hvalue]
  constructor <;> linarith

theorem value_cut_mono {v w : Rat} {scale : Nat} (hv : 0 ≤ v) (h : v ≤ w)
    (hfloor : v.floor = w.floor) (hscale : scale ≤ 17) :
    (cut v scale).value ≤ (cut w scale).value := by
  have hpos : (0 : Rat) < ((10 ^ scale : Nat) : Rat) := by positivity
  obtain ⟨r, hr, hvalue⟩ := exists_value_cut hv hscale
  obtain ⟨s, hs, hvalue'⟩ := exists_value_cut (hv.trans h) hscale
  have hscaled : scaledFraction v scale ≤ scaledFraction w scale := by
    rw [scaledFraction, scaledFraction, hfloor]
    exact mul_le_mul_of_nonneg_right (sub_le_sub_right h _) hpos.le
  have hround : roundUp r ≤ roundUp s :=
    roundUp_mono (Magnitude.nearest_mono (scaledFraction_nonneg v scale) hscaled hr hs)
  have hfraction : (roundUp r : Rat) / ((10 ^ scale : Nat) : Rat) ≤
      roundUp s / ((10 ^ scale : Nat) : Rat) :=
    div_le_div_of_nonneg_right (by exact_mod_cast hround) hpos.le
  rw [hvalue, hvalue', hfloor]
  exact add_le_add_right hfraction _

end Split

/-! ## Magnitudes -/

namespace Precision

variable {p : Precision} {v w : Rat}

theorem amount_nonneg (p : Precision) (v : Rat) : 0 ≤ p.amount v := by
  rw [amount]
  split
  · exact le_rfl
  · exact Split.value_nonneg _

theorem scale_le (p : Precision) (v : Rat) : p.scale v ≤ 17 := Nat.min_le_left _ _

/-- The digits change at one, a whole number. -/
theorem scale_eq_of_floor_eq (h : v.floor = w.floor) : p.scale v = p.scale w := by
  have hone (x : Rat) : 1 ≤ x ↔ 1 ≤ x.floor := by
    rw [Rat.le_floor_iff, Int.cast_one]
  rw [scale, scale, digits, digits, if_congr ((hone v).trans (h ▸ (hone w).symm)) rfl rfl]

theorem amount_mono (p : Precision) (hv : 0 ≤ v) (h : v ≤ w) : p.amount v ≤ p.amount w := by
  by_cases hzero : v = 0 ∨ p.zeroBelow.exceeds v = true
  · rw [amount, if_pos hzero]
    exact p.amount_nonneg w
  · have hzero' : ¬ (w = 0 ∨ p.zeroBelow.exceeds w = true) := by
      rintro (rfl | hw)
      · exact hzero (.inl (le_antisymm h hv))
      · exact hzero (.inr (Magnitude.exceeds_of_le h hw))
    rw [amount, amount, if_neg hzero, if_neg hzero', Split.value_ofMagnitude (p.scale_le v),
      Split.value_ofMagnitude (p.scale_le w)]
    rcases (Rat.floor_monotone h).lt_or_eq with hlt | heq
    · have hbetween : (v.floor : Rat) + 1 ≤ w.floor := by exact_mod_cast hlt
      calc (Split.cut v (p.scale v)).value
          ≤ v.floor + 1 := (Split.value_cut_bounds hv (p.scale_le v)).2
        _ ≤ w.floor := hbetween
        _ ≤ (Split.cut w (p.scale w)).value :=
            (Split.value_cut_bounds (hv.trans h) (p.scale_le w)).1
    · rw [scale_eq_of_floor_eq heq]
      exact Split.value_cut_mono hv h heq (p.scale_le w)

/-! ## Signs -/

/-- The number that is written for a value that can be split. -/
def written (p : Precision) (v : Rat) : Rat := if v < 0 then -p.amount |v| else p.amount |v|

theorem amount_zero (p : Precision) : p.amount 0 = 0 := if_pos (.inl rfl)

/-- Zero is written without its sign. -/
theorem signed_amount {negative : Bool} (h : v = (if negative then -1 else 1) * |v|) :
    (if negative then -1 else 1) * p.amount |v| = p.written v := by
  by_cases hzero : v = 0
  · rw [written, hzero, abs_zero, amount_zero]
    simp
  · rw [written, negative_eq h hzero]
    by_cases hneg : v < 0
    · simp [hneg]
    · simp [hneg]

theorem written_mono (p : Precision) (h : v ≤ w) : p.written v ≤ p.written w := by
  have hv := p.amount_nonneg |v|
  have hw := p.amount_nonneg |w|
  rw [written, written]
  split_ifs with hneg hneg' hneg'
  · -- The greater of two negative values has the smaller magnitude.
    rw [neg_le_neg_iff]
    exact p.amount_mono (abs_nonneg w) (by rw [abs_of_neg hneg, abs_of_neg hneg']; linarith)
  · linarith
  · exact absurd (h.trans_lt hneg') hneg
  · exact p.amount_mono (abs_nonneg v) (abs_le_abs_of_nonneg (not_lt.mp hneg) h)

end Precision

/-! ## Texts -/

theorem exists_written (p : Precision) (w : Binary64) {v : Rat} (hv : w.datum.value? = some v)
    (hlimit : |v| < ((10 ^ 18 : Nat) : Rat)) :
    ∃ out n, (Writing.fixed p w.datum).into "" = (out, none) ∧ parse out = some (.number n) ∧
      n.value = p.written v := by
  obtain ⟨negative, m, q, hdatum, habs, hsigned⟩ := Datum.eq_finite hv
  obtain ⟨n, hnumber, hvalue⟩ := exists_number p negative (habs ▸ hlimit)
  have hreads := (reads_fixed p (d := w.datum) (by rw [hdatum]; rfl)).parse
  rw [← habs] at hvalue hsigned
  refine ⟨fixed p w.datum, n, Writing.fixed_into_empty p w.datum, ?_, ?_⟩
  · rw [hreads, hdatum, hnumber]
  · rw [hvalue, Precision.signed_amount hsigned]

/-- Of two finite floats, of whatever magnitudes and signs, the greater is not written as the
smaller decimal. -/
theorem fixed_mono (p : Precision) (x y : Binary64) {v w : Rat} (hv : x.datum.value? = some v)
    (hw : y.datum.value? = some w) (h : v ≤ w) (hlimit : |v| < ((10 ^ 18 : Nat) : Rat))
    (hlimit' : |w| < ((10 ^ 18 : Nat) : Rat)) :
    ∃ out n out' n', (Writing.fixed p x.datum).into "" = (out, none) ∧
      (Writing.fixed p y.datum).into "" = (out', none) ∧ parse out = some (.number n) ∧
      parse out' = some (.number n') ∧ n.value ≤ n'.value := by
  obtain ⟨out, n, htext, hparse, hvalue⟩ := exists_written p x hv hlimit
  obtain ⟨out', n', htext', hparse', hvalue'⟩ := exists_written p y hw hlimit'
  refine ⟨out, n, out', n', htext, htext', hparse, hparse', ?_⟩
  rw [hvalue, hvalue']
  exact p.written_mono h

/-- One decimal is kept below minus one and four above it, so that the smaller value is written with
the fewer digits. -/
theorem fixed_mono_digits :
    let p : Precision := ⟨1, 4⟩
    let x : Binary64 := ⟨0xbff0a3d70a3d70a4⟩
    let y : Binary64 := ⟨0xbfeffcb923a29c78⟩
    let v : Rat := -1170935903116329 / 1125899906842624
    let w : Rat := -1125449546879887 / 1125899906842624
    x.datum.value? = some v ∧ y.datum.value? = some w ∧ v ≤ w ∧
      (Writing.fixed p x.datum).into "" = ("-1", none) ∧
      (Writing.fixed p y.datum).into "" = ("-0.9996", none) ∧
      ∃ n n', parse "-1" = some (.number n) ∧ parse "-0.9996" = some (.number n') ∧
        n.value ≤ n'.value := by
  intro p x y v w
  have hv : x.datum.value? = some v := by decide +kernel
  have hw : y.datum.value? = some w := by decide +kernel
  have hle : v ≤ w := by norm_num [v, w]
  have hx : (Writing.fixed p x.datum).into "" = ("-1", none) := by decide +kernel
  have hy : (Writing.fixed p y.datum).into "" = ("-0.9996", none) := by decide +kernel
  obtain ⟨out, n, out', n', htext, htext', hparse, hparse', hvalue⟩ :=
    fixed_mono p x y hv hw hle (by norm_num [v, abs_of_neg]) (by norm_num [w, abs_of_neg])
  obtain ⟨rfl, -⟩ := Prod.mk.inj (hx.symm.trans htext)
  obtain ⟨rfl, -⟩ := Prod.mk.inj (hy.symm.trans htext')
  exact ⟨hv, hw, hle, hx, hy, n, n', hparse, hparse', hvalue⟩

end JsonPlan.Decimal
