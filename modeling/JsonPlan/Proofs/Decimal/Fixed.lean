import JsonPlan.Decimal.Fixed
import JsonPlan.Proofs.Binary.Rounding
import JsonPlan.Proofs.Json.Numbers

/-! Split decimals have the digits that their scale promises, and so they are read back. -/

namespace JsonPlan.Decimal.Split

open Binary Json

/-- The fraction has room behind the point. -/
def Fits (s : Split) : Prop := s.fraction < 10 ^ s.scale

theorem fits_carry {s : Split} (h : s.fraction ≤ 10 ^ s.scale) : s.carry.Fits := by
  rw [carry]
  split
  · have hpos : 0 < 10 ^ s.scale := Nat.pow_pos (by decide)
    simp only [Fits]
    omega
  · simp only [Fits]
    omega

theorem Fits.scale_pos {s : Split} (h : s.Fits) (hfraction : s.fraction ≠ 0) : 1 ≤ s.scale := by
  rcases Nat.eq_zero_or_pos s.scale with hzero | hpos
  · rw [Fits, hzero] at h
    omega
  · exact hpos

theorem Fits.drop {s : Split} (h : s.Fits) (hfraction : s.fraction ≠ 0) : s.drop.Fits := by
  obtain ⟨scale, hscale⟩ := Nat.exists_eq_add_of_le (h.scale_pos hfraction)
  rw [Fits, hscale, Nat.pow_add] at h
  change s.fraction / 10 < 10 ^ (s.scale - 1)
  rw [hscale, Nat.add_sub_cancel_left]
  omega

theorem Fits.strip {s : Split} (h : s.Fits) : s.strip.Fits := by
  fun_induction Split.strip s with
  | case1 s hzero ih => exact ih (h.drop hzero.1.ne')
  | case2 s _ => exact h

theorem scaledFraction_nonneg (v : Rat) (scale : Nat) : 0 ≤ scaledFraction v scale :=
  mul_nonneg (sub_nonneg.mpr (Rat.floor_le v)) (Nat.cast_nonneg _)

theorem scaledFraction_lt (v : Rat) (scale : Nat) :
    scaledFraction v scale < ((10 ^ scale : Nat) : Rat) := by
  have hpos : (0 : Rat) < ((10 ^ scale : Nat) : Rat) := by positivity
  have hfloor : v < ((v.floor + 1 : Int) : Rat) := Rat.floor_lt_iff.mp (by omega)
  push_cast at hfloor
  have hone : v - v.floor < 1 := by linarith
  simpa [scaledFraction] using mul_lt_mul_of_pos_right hone hpos

theorem cut_eq {v r : Rat} {scale : Nat}
    (h : Magnitude.nearest (scaledFraction v scale) = .finite r) :
    cut v scale = ⟨v.floor.natAbs, (roundUp r).natAbs, scale⟩ := by
  rw [cut, h]

/-- A fraction is less than one before it is rounded, and at most one afterwards. -/
theorem fraction_cut_le {v : Rat} {scale : Nat} (hscale : scale ≤ 17) :
    (cut v scale).fraction ≤ 10 ^ scale := by
  have hnonneg := scaledFraction_nonneg v scale
  cases hnearest : Magnitude.nearest (scaledFraction v scale) with
  | infinite => simp [cut, hnearest]
  | finite r =>
      have hr := Magnitude.nearest_le_pow hscale hnonneg (scaledFraction_lt v scale) hnearest
      have hround := roundUp_le (n := ((10 ^ scale : Nat) : Int)) (by exact_mod_cast hr)
      have hround' := roundUp_nonneg (Magnitude.nearest_nonneg hnearest hnonneg)
      rw [cut_eq hnearest]
      simp only
      omega

theorem fits_ofMagnitude {v : Rat} {scale : Nat} (hscale : scale ≤ 17) :
    (ofMagnitude v scale).Fits :=
  (fits_carry (fraction_cut_le hscale)).strip

/-! ## Fractions -/

/-- The digits behind the point. -/
def fractionDigits (s : Split) : List Char :=
  List.replicate (s.scale - digitCount s.fraction) '0' ++ digits s.fraction

variable {s : Split}

theorem isDigit_of_mem_fractionDigits {c : Char} (h : c ∈ s.fractionDigits) :
    isDigit c = true := by
  rcases List.mem_append.mp h with h | h
  · rw [List.eq_of_mem_replicate h]
    decide
  · exact isDigit_of_mem_digits h

theorem fractionDigits_ne_nil (s : Split) : s.fractionDigits ≠ [] := by
  simp [fractionDigits, digits_ne_nil]

theorem digitsValue_fractionDigits (s : Split) : digitsValue s.fractionDigits = s.fraction := by
  rw [fractionDigits, digitsValue_append, digitsValue_replicate_zero, digitsValue_digits, zero_mul,
    zero_add]

theorem Fits.length_fractionDigits (h : s.Fits) (hfraction : s.fraction ≠ 0) :
    s.fractionDigits.length = s.scale := by
  have hcount := digitCount_le (h.scale_pos hfraction) h
  rw [fractionDigits, List.length_append, List.length_replicate]
  rw [digitCount] at hcount ⊢
  omega

/-! ## Texts -/

theorem toList_join_chunks (negative : Bool) (h : ¬ (s.whole = 0 ∧ s.fraction = 0)) :
    (String.join (s.chunks negative)).toList =
      (if negative then ['-'] else []) ++ (digits s.whole ++
        if s.fraction = 0 then [] else '.' :: s.fractionDigits) := by
  have hzeros := toList_join_replicate (s.scale - digitCount s.fraction) 1
  rw [Nat.mul_one, String.toList_join, show String.ofList (List.replicate 1 '0') = "0" from rfl]
    at hzeros
  rw [chunks, if_neg h, fractionDigits]
  by_cases hfraction : s.fraction = 0
  · cases negative <;> simp [numeral, hfraction]
  · cases negative <;> simp [numeral, String.toList_join, hfraction, hzeros]

theorem Fits.reads_chunks (h : s.Fits) (negative : Bool) :
    Reads (String.join (s.chunks negative))
      (.number ⟨(if negative then -1 else 1) * s.scaled.1, s.scaled.2⟩) := by
  by_cases hzero : s.whole = 0 ∧ s.fraction = 0
  · have hdigits : digits 0 = ['0'] := digits_of_lt (by decide)
    rw [chunks, if_pos hzero, scaled, if_pos hzero.2, hzero.1, Nat.cast_zero, mul_zero]
    exact (spells_digits 0).reads (by rw [hdigits]; rfl)
  · have htext := toList_join_chunks negative hzero
    by_cases hfraction : s.fraction = 0
    · rw [if_pos hfraction, List.append_nil] at htext
      rw [scaled, if_pos hfraction]
      exact (spells_digits s.whole).reads_signed negative htext
    · have hspells := spells_point s.whole
        (fractionDigits_ne_nil s) fun c hc => isDigit_of_mem_fractionDigits hc
      rw [h.length_fractionDigits hfraction, digitsValue_fractionDigits] at hspells
      rw [if_neg hfraction] at htext
      rw [scaled, if_neg hfraction]
      exact hspells.reads_signed negative htext

end JsonPlan.Decimal.Split
