import JsonPlan.Proofs.Decimal.Accuracy

/-!
The form of the text of a float. It has a sign only in front of a number other than zero, no zero in
front of its whole part and none behind its fraction, and the float with the other sign has the same
digits. On the way all numbers stay within words, and a fraction keeps its places while zeros are
dropped from it.
-/

namespace JsonPlan.Decimal

open Binary Json

/-! ## Positional decimals -/

/-- A decimal as it is written: the digits in front of the point and the digits behind it. -/
structure Positional where
  negative : Bool
  whole : List Char
  fraction : List Char
  deriving DecidableEq, Repr

namespace Positional

/-- There is no point without a digit behind it. -/
def text (d : Positional) : String :=
  .ofList ((if d.negative then ['-'] else []) ++ (d.whole ++
    if d.fraction = [] then [] else '.' :: d.fraction))

/-- The same digits behind the other sign. -/
def toggle (d : Positional) : Positional := { d with negative := !d.negative }

/-- No zero stands in front of the digits and none behind the fraction, and zero has no sign. -/
structure Canonical (places : Nat) (d : Positional) : Prop where
  whole_ne_nil : d.whole ≠ []
  isDigit_whole : ∀ c ∈ d.whole, isDigit c = true
  leading : d.whole.head? = some '0' → d.whole = ['0']
  isDigit_fraction : ∀ c ∈ d.fraction, isDigit c = true
  trailing : d.fraction.getLast? ≠ some '0'
  length_fraction : d.fraction.length ≤ places
  signed : d.negative = true → ∃ c ∈ d.whole ++ d.fraction, c ≠ '0'

theorem Canonical.mono {places places' : Nat} {d : Positional} (h : d.Canonical places)
    (hle : places ≤ places') : d.Canonical places' :=
  { h with length_fraction := h.length_fraction.trans hle }

def zero : Positional := ⟨false, ['0'], []⟩

theorem text_zero : zero.text = "0" := rfl

theorem canonical_zero (places : Nat) : Canonical places zero where
  whole_ne_nil := List.cons_ne_nil _ _
  isDigit_whole := by simp [zero, isDigit]
  leading _ := rfl
  isDigit_fraction := by simp [zero]
  trailing := by simp [zero]
  length_fraction := Nat.zero_le places
  signed h := by cases h

theorem text_ne_zero {d : Positional} (h : ∃ c ∈ d.whole ++ d.fraction, c ≠ '0') :
    d.text ≠ "0" := by
  obtain ⟨c, hc, hne⟩ := h
  intro htext
  have hmem : c ∈ d.text.toList := by
    rw [text, String.toList_ofList]
    rcases List.mem_append.mp hc with hc | hc
    · simp [hc]
    · simp [hc, List.ne_nil_of_mem hc]
  rw [htext] at hmem
  exact hne (by simpa using hmem)

end Positional

/-! ## Digits -/

theorem getLast?_digits (n : Nat) : (digits n).getLast? = some (digitChar (n % 10)) := by
  rcases lt_or_ge n 10 with hn | hn
  · rw [digits_of_lt hn, Nat.mod_eq_of_lt hn]
    rfl
  · rw [digits_of_ge hn, List.getLast?_concat]

theorem digits_leading {n : Nat} (h : (digits n).head? = some '0') : digits n = ['0'] := by
  rcases Nat.eq_zero_or_pos n with rfl | hn
  · exact digits_of_lt (by decide)
  · exact absurd h (head?_digits hn)

theorem exists_mem_digits_ne {n : Nat} (h : 0 < n) : ∃ c ∈ digits n, c ≠ '0' := by
  have hlead := head?_digits h
  cases hdigits : digits n with
  | nil => exact absurd hdigits (digits_ne_nil n)
  | cons c cs =>
      refine ⟨c, List.mem_cons_self, ?_⟩
      rintro rfl
      exact hlead (by rw [hdigits]; rfl)

namespace Split

/-! ## Dropping zeros -/

/-- The states that a split decimal passes while zeros are dropped from its fraction. -/
inductive Strips : Split → Split → Prop
  | refl (s : Split) : Strips s s
  | drop {s t : Split} (h : 0 < s.fraction ∧ s.fraction % 10 = 0) : Strips s.drop t → Strips s t

theorem strips_strip (s : Split) : Strips s s.strip := by
  fun_induction Split.strip s with
  | case1 s hzero ih => exact .drop hzero ih
  | case2 s _ => exact .refl s

theorem fraction_strip (s : Split) : s.strip.fraction = 0 ∨ s.strip.fraction % 10 ≠ 0 := by
  fun_induction Split.strip s with
  | case1 s _ ih => exact ih
  | case2 s hstop => omega

/-- The whole part has room for one more, and the fraction for all its places. -/
structure InRange (s : Split) : Prop where
  whole : s.whole ≤ 10 ^ 18
  fits : s.Fits
  scale : s.scale ≤ 17

theorem InRange.drop {s : Split} (h : s.InRange) (hfraction : s.fraction ≠ 0) :
    s.drop.InRange where
  whole := h.whole
  fits := h.fits.drop hfraction
  scale := (Nat.sub_le _ _).trans h.scale

theorem Strips.inRange {s t : Split} (h : Strips s t) (hs : s.InRange) : t.InRange := by
  induction h with
  | refl s => exact hs
  | drop hzero _ ih => exact ih (hs.drop hzero.1.ne')

theorem Strips.scale_le {s t : Split} (h : Strips s t) : t.scale ≤ s.scale := by
  induction h with
  | refl s => exact le_rfl
  | drop hzero _ ih => exact ih.trans (Nat.sub_le _ _)

theorem whole_cut_le {v : Rat} (hv : 0 ≤ v) (hlimit : v < ((10 ^ 18 : Nat) : Rat)) (scale : Nat) :
    (cut v scale).whole + 1 ≤ 10 ^ 18 := by
  have hnonneg : 0 ≤ v.floor := Rat.le_floor_iff.mpr (by simpa using hv)
  have hlt : v.floor < ((10 ^ 18 : Nat) : Int) := Rat.floor_lt_iff.mpr (by exact_mod_cast hlimit)
  change v.floor.natAbs + 1 ≤ 10 ^ 18
  omega

theorem scale_carry (s : Split) : s.carry.scale = s.scale := by
  rw [carry]
  split <;> rfl

theorem inRange_carry {s : Split} (hwhole : s.whole + 1 ≤ 10 ^ 18)
    (hfraction : s.fraction ≤ 10 ^ s.scale) (hscale : s.scale ≤ 17) : s.carry.InRange where
  whole := by
    rw [carry]
    split
    · exact hwhole
    · exact (Nat.le_succ _).trans hwhole
  fits := fits_carry hfraction
  scale := (scale_carry s).trans_le hscale

theorem InRange.fraction_lt {s : Split} (h : s.InRange) : s.fraction < 10 ^ 17 :=
  h.fits.trans_le (Nat.pow_le_pow_right (by decide) h.scale)

/-- What is promised about the numbers between a value and its digits. -/
structure Safe (v : Rat) (scale : Nat) : Prop where
  unit : 10 ^ scale < UInt64.size
  scaled : ∃ r, Magnitude.nearest (scaledFraction v scale) = .finite r
  /-- The parts are words, and the whole one can take a carry. -/
  whole : (cut v scale).whole + 1 < UInt64.size
  fraction : (cut v scale).fraction < UInt64.size
  /-- Less than one is left by the carry. -/
  carry : (cut v scale).carry.fraction < 10 ^ scale
  /-- The digits are those of the last state that drops zeros. -/
  strips : Strips (cut v scale).carry (ofMagnitude v scale)
  /-- No state gives up its last place before its fraction. -/
  places : ∀ t, Strips (cut v scale).carry t → t.fraction ≠ 0 → 1 ≤ t.scale
  words : ∀ t, Strips (cut v scale).carry t →
    t.whole < UInt64.size ∧ t.fraction < UInt64.size
  /-- A numeral fits the buffer of a word. -/
  numerals : digitCount (ofMagnitude v scale).whole ≤ 20 ∧
    digitCount (ofMagnitude v scale).fraction ≤ 20

theorem safe {v : Rat} {scale : Nat} (hv : 0 ≤ v) (hlimit : v < ((10 ^ 18 : Nat) : Rat))
    (hscale : scale ≤ 17) : Safe v scale := by
  have hsize : UInt64.size = 18446744073709551616 := rfl
  have hwhole := whole_cut_le hv hlimit scale
  have hfraction := fraction_cut_le (v := v) hscale
  have hpow : 10 ^ scale ≤ 10 ^ 17 := Nat.pow_le_pow_right (by decide) hscale
  have hcarry := inRange_carry hwhole hfraction hscale
  have hstates (t : Split) (h : Strips (cut v scale).carry t) : t.InRange := h.inRange hcarry
  have hstrips : Strips (cut v scale).carry (ofMagnitude v scale) := strips_strip _
  exact {
    unit := by omega
    scaled := Magnitude.exists_nearest (scaledFraction_nonneg v scale)
      ((scaledFraction_lt v scale).le.trans
        (by exact_mod_cast Nat.pow_le_pow_right (by decide) (hscale.trans (by decide))))
    whole := by omega
    fraction := by omega
    carry := by
      have hfits := hcarry.fits
      rwa [Fits, scale_carry] at hfits
    strips := hstrips
    places := fun t h hne => (hstates t h).fits.scale_pos hne
    words := fun t h => by
      have hw := (hstates t h).whole
      have hf := (hstates t h).fraction_lt
      omega
    numerals := by
      have hlast := hstates _ hstrips
      have hw := hlast.whole
      have hf := hlast.fraction_lt
      exact ⟨digitCount_le (by decide) (by omega), digitCount_le (by decide) (by omega)⟩ }

/-! ## Texts -/

/-- The digits of a split decimal. -/
def positional (negative : Bool) (s : Split) : Positional :=
  ⟨negative, digits s.whole, if s.fraction = 0 then [] else s.fractionDigits⟩

theorem exists_digit_ne {s : Split} (h : ¬ (s.whole = 0 ∧ s.fraction = 0)) (negative : Bool) :
    ∃ c ∈ (s.positional negative).whole ++ (s.positional negative).fraction, c ≠ '0' := by
  by_cases hwhole : s.whole = 0
  · have hfraction : s.fraction ≠ 0 := fun hzero => h ⟨hwhole, hzero⟩
    obtain ⟨c, hc, hne⟩ := exists_mem_digits_ne (Nat.pos_of_ne_zero hfraction)
    refine ⟨c, List.mem_append_right _ ?_, hne⟩
    rw [positional, if_neg hfraction]
    exact List.mem_append_right _ hc
  · obtain ⟨c, hc, hne⟩ := exists_mem_digits_ne (Nat.pos_of_ne_zero hwhole)
    exact ⟨c, List.mem_append_left _ hc, hne⟩

theorem join_chunks {s : Split} (h : ¬ (s.whole = 0 ∧ s.fraction = 0)) (negative : Bool) :
    String.join (s.chunks negative) = (s.positional negative).text := by
  rw [← String.toList_inj, toList_join_chunks negative h, Positional.text, String.toList_ofList,
    positional]
  by_cases hfraction : s.fraction = 0
  · simp [hfraction]
  · simp [hfraction, fractionDigits_ne_nil]

theorem Fits.canonical {s : Split} (hfits : s.Fits)
    (hlast : s.fraction = 0 ∨ s.fraction % 10 ≠ 0) (h : ¬ (s.whole = 0 ∧ s.fraction = 0))
    (negative : Bool) : (s.positional negative).Canonical s.scale where
  whole_ne_nil := digits_ne_nil _
  isDigit_whole _ := isDigit_of_mem_digits
  leading := digits_leading
  isDigit_fraction c hc := by
    rw [positional] at hc
    split at hc
    · cases hc
    · exact isDigit_of_mem_fractionDigits hc
  trailing := by
    rw [positional]
    split
    · simp
    · rename_i hfraction
      have hdigit := Nat.mod_lt s.fraction (by decide : 0 < 10)
      have hne := digitChar_ne_zero hdigit (by omega)
      simp [fractionDigits, getLast?_digits, hne]
  length_fraction := by
    rw [positional]
    split
    · exact Nat.zero_le _
    · rename_i hfraction
      exact (hfits.length_fractionDigits hfraction).le
  signed _ := exists_digit_ne h negative

end Split

/-- The digits of a finite float do not depend on its sign. -/
theorem exists_split (p : Precision) (m : Nat) (q : Int) :
    ∃ s : Split, s.Fits ∧ (s.fraction = 0 ∨ s.fraction % 10 ≠ 0) ∧
      s.scale ≤ p.scale (m * pow2 q) ∧
      ∀ negative, fixed p (.finite negative m q) = String.join (s.chunks negative) := by
  by_cases hzero : (m : Rat) * pow2 q = 0 ∨ p.zeroBelow.exceeds (m * pow2 q) = true
  · refine ⟨⟨0, 0, 0⟩, Nat.one_pos, .inl rfl, Nat.zero_le _, fun negative => ?_⟩
    rw [fixed, fixedChunks, if_pos hzero]
    rfl
  · by_cases hlarge : splitLimit ≤ (m : Rat) * pow2 q
    · -- What is too large to split has a whole part alone.
      have hwhole := whole_shortest (f := .binary64) hlarge
      have hpos := Nat.mul_pos hwhole.coefficient
        (Nat.pow_pos (n := (shortest .binary64 m q).exponent.toNat) (by decide : 0 < 10))
      have hdigits := toList_join_naturalChunks (f := .binary64) hlarge
      generalize (shortest .binary64 m q).coefficient *
        10 ^ (shortest .binary64 m q).exponent.toNat = n at hpos hdigits
      refine ⟨⟨n, 0, 0⟩, Nat.one_pos, .inl rfl, Nat.zero_le _, fun negative => ?_⟩
      rw [fixed, fixedChunks, if_neg hzero, if_pos hlarge, ← String.toList_inj, hdigits,
        Split.toList_join_chunks negative fun h => hpos.ne' h.1]
      simp
    · have hscale : p.scale (m * pow2 q) ≤ 17 := Nat.min_le_left _ _
      refine ⟨Split.ofMagnitude (m * pow2 q) (p.scale (m * pow2 q)), Split.fits_ofMagnitude hscale,
        Split.fraction_strip _, ?_, fun negative => ?_⟩
      · exact (Split.strips_strip _).scale_le.trans (Split.scale_carry _).le
      · rw [fixed, fixedChunks, if_neg hzero, if_neg hlarge]

/-! ## Floats -/

/-- The text of a finite float is canonical, and the float with the other sign has the same digits
behind the other sign. -/
theorem fixed_canonical (p : Precision) (w : Binary64) {v : Rat} (hv : w.datum.value? = some v) :
    ∃ d : Positional, (Writing.fixed p w.datum).into "" = (d.text, none) ∧
      d.Canonical (min 17 (if 1 ≤ |v| then p.decimals.toNat else p.precision.toNat)) ∧
      w.neg.datum.value? = some (-v) ∧
      (Writing.fixed p w.neg.datum).into "" =
        ((if d.text = "0" then d else d.toggle).text, none) ∧
      (|v| < ((10 ^ 18 : Nat) : Rat) →
        Split.Safe |v| (min 17 (if 1 ≤ |v| then p.decimals.toNat else p.precision.toNat))) := by
  have hinto (d : Datum) : (Writing.fixed p d).into "" = (fixed p d, none) := by
    rw [Writing.fixed_eq]
    exact Trace.into_empty _
  have hneg : w.datum.neg.value? = some (-v) := Datum.value?_neg hv
  obtain ⟨negative, m, q, hdatum, habs, -⟩ := Datum.eq_finite hv
  obtain ⟨s, hfits, hlast, hscale, htext⟩ := exists_split p m q
  have hsafe : |v| < ((10 ^ 18 : Nat) : Rat) → Split.Safe |v| (p.scale |v|) := fun hlimit =>
    Split.safe (abs_nonneg v) hlimit (Nat.min_le_left _ _)
  rw [hdatum] at hneg
  rw [hinto, hinto, Binary64.datum_neg, hdatum]
  by_cases hzero : s.whole = 0 ∧ s.fraction = 0
  · have hnothing (negative : Bool) : fixed p (.finite negative m q) = Positional.zero.text := by
      rw [htext, Split.chunks, if_pos hzero]
      rfl
    refine ⟨.zero, by rw [hnothing], Positional.canonical_zero _, hneg, ?_, hsafe⟩
    rw [Datum.neg, hnothing, if_pos Positional.text_zero]
  · have hpositional (negative : Bool) :
        fixed p (.finite negative m q) = (s.positional negative).text := by
      rw [htext, Split.join_chunks hzero]
    refine ⟨s.positional negative, by rw [hpositional], ?_, hneg, ?_, hsafe⟩
    · rw [habs]
      exact (hfits.canonical hlast hzero negative).mono hscale
    · rw [Datum.neg, hpositional,
        if_neg (Positional.text_ne_zero (Split.exists_digit_ne hzero negative))]
      rfl

/-- A zero stands between the point and the only digit that is left. Below one the digits are those of
`precision`, two of them. -/
theorem fixed_canonical_padded :
    let w : Binary64 := ⟨0xbf74e3bcd35a8588⟩
    w.datum.value? = some (-734987459186865 / 144115188075855872) ∧
      (Writing.fixed ⟨5, 2⟩ w.datum).into "" = ("-0.01", none) ∧
      (Writing.fixed ⟨5, 2⟩ w.neg.datum).into "" = ("0.01", none) ∧
      ∃ d : Positional, d.text = "-0.01" ∧ d.Canonical 2 ∧ d.toggle.text = "0.01" := by
  intro w
  have hv : w.datum.value? = some (-734987459186865 / 144115188075855872) := by decide +kernel
  have hout : (Writing.fixed ⟨5, 2⟩ w.datum).into "" = ("-0.01", none) := by decide +kernel
  have hout' : (Writing.fixed ⟨5, 2⟩ w.neg.datum).into "" = ("0.01", none) := by decide +kernel
  obtain ⟨d, htext, hcanonical, -, hneg, -⟩ := fixed_canonical ⟨5, 2⟩ w hv
  obtain ⟨hd, -⟩ := Prod.mk.inj (hout.symm.trans htext)
  rw [← hd, if_neg (by decide)] at hneg
  obtain ⟨hd', -⟩ := Prod.mk.inj (hout'.symm.trans hneg)
  refine ⟨hv, hout, hout', d, hd.symm, hcanonical.mono ?_, hd'.symm⟩
  rw [if_neg (by norm_num [abs_of_neg])]
  decide

end JsonPlan.Decimal
