import JsonPlan.Proofs.Options.Callback

/-!
Options that an encoder honours have neither of two switches on, and a callback only of the grammar
of callbacks. Flags tell all of the options but two.
-/

namespace JsonPlan.Options

/-! ## The check -/

theorem checkEncodable_eq_ok_iff {o : Options} :
    o.checkEncodable = .ok () ↔ o.prettyPrint = false ∧ o.excludeNulls = false ∧
      ∀ callback, o.jsonpCallback = some callback → callback.toList ∈ callbackPath := by
  simp only [← isCallbackPath_iff]
  rw [checkEncodable]
  cases o.prettyPrint with
  | true => simp
  | false =>
      cases o.excludeNulls with
      | true => simp
      | false =>
          cases o.jsonpCallback with
          | none => simp
          | some callback => cases hpath : isCallbackPath callback <;> simp [hpath]

/-- Why options are refused: for the first of the two switches that is on, or else for the callback. -/
inductive Refused (o : Options) : Error → Prop where
  | prettyPrint (h : o.prettyPrint = true) : Refused o (.unsupportedOption "pretty_print")
  | excludeNulls (hpretty : o.prettyPrint = false) (h : o.excludeNulls = true) :
      Refused o (.unsupportedOption "exclude_nulls")
  | callback {callback : String} (hpretty : o.prettyPrint = false)
      (hnulls : o.excludeNulls = false) (h : o.jsonpCallback = some callback)
      (hpath : callback.toList ∉ callbackPath) : Refused o (.invalidCallback callback)

theorem refused_of_checkEncodable {o : Options} {error : Error}
    (h : o.checkEncodable = .error error) : o.Refused error := by
  rw [checkEncodable] at h
  split at h
  · rename_i hpretty
    cases h
    exact .prettyPrint hpretty
  · rename_i hpretty
    split at h
    · rename_i hnulls
      cases h
      exact .excludeNulls (Bool.eq_false_iff.mpr hpretty) hnulls
    · rename_i hnulls
      split at h
      · rename_i callback hcallback
        split at h
        · cases h
        · rename_i hpath
          cases h
          exact .callback (Bool.eq_false_iff.mpr hpretty) (Bool.eq_false_iff.mpr hnulls) hcallback
            fun hmem => hpath (isCallbackPath_iff.mpr hmem)
      · cases h

theorem isCallbackPath_of_checkEncodable {o : Options} {callback : String}
    (hcallback : o.jsonpCallback = some callback) (h : o.checkEncodable = .ok ()) :
    isCallbackPath callback = true :=
  isCallbackPath_iff.mpr ((checkEncodable_eq_ok_iff.mp h).2.2 callback hcallback)

/-! ## Flags -/

theorem getLsbD_bit {i : Nat} (hi : i < 9) (on : Bool) (j : Nat) :
    (OptionFlags.bit i on).getLsbD j = (on && decide (i = j)) := by
  cases on with
  | false => simp [OptionFlags.bit]
  | true => simp [OptionFlags.bit, BitVec.getLsbD_twoPow, hi]

theorem getLsbD_flags (o : Options) (j : Nat) :
    o.flags.getLsbD j =
      (decide (o.dateFormat.flagIndex = j) || (o.jsonpCallback.isSome && decide (5 = j)) ||
        (o.excludeNulls && decide (6 = j)) || (o.includeInherited && decide (7 = j)) ||
        (o.prettyPrint && decide (8 = j))) := by
  have hformat : o.dateFormat.flagIndex < 9 := by
    cases o.dateFormat <;> decide
  simp [flags, DateFormat.flag, OptionFlags.jsonp, OptionFlags.excludeNulls,
    OptionFlags.includeInherited, OptionFlags.prettyPrint, getLsbD_bit, hformat]

/-- The lowest bits show the style. -/
theorem getLsbD_flagIndex (o : Options) (f : DateFormat) :
    o.flags.getLsbD f.flagIndex = decide (f = o.dateFormat) := by
  rw [getLsbD_flags]
  cases f <;> cases o.dateFormat <;> simp [DateFormat.flagIndex]

/-- The bits above them show one switch each. -/
theorem getLsbD_switches (o : Options) :
    o.flags.getLsbD 5 = o.jsonpCallback.isSome ∧ o.flags.getLsbD 6 = o.excludeNulls ∧
      o.flags.getLsbD 7 = o.includeInherited ∧ o.flags.getLsbD 8 = o.prettyPrint := by
  simp only [getLsbD_flags]
  cases o.dateFormat <;> simp [DateFormat.flagIndex]

/-- What a callback is called and whether sizes are recorded does not show in the flags. -/
theorem flags_eq_iff {o o' : Options} :
    o.flags = o'.flags ↔ o.dateFormat = o'.dateFormat ∧
      o.jsonpCallback.isSome = o'.jsonpCallback.isSome ∧ o.excludeNulls = o'.excludeNulls ∧
      o.includeInherited = o'.includeInherited ∧ o.prettyPrint = o'.prettyPrint := by
  constructor
  · intro h
    have hformat : decide (o.dateFormat = o.dateFormat) = decide (o.dateFormat = o'.dateFormat) := by
      rw [← getLsbD_flagIndex, ← getLsbD_flagIndex, h]
    obtain ⟨hcallback, hnulls, hinherited, hpretty⟩ := o.getLsbD_switches
    obtain ⟨hcallback', hnulls', hinherited', hpretty'⟩ := o'.getLsbD_switches
    rw [h] at hcallback hnulls hinherited hpretty
    exact ⟨by simpa using hformat, hcallback.symm.trans hcallback', hnulls.symm.trans hnulls',
      hinherited.symm.trans hinherited', hpretty.symm.trans hpretty'⟩
  · rintro ⟨hformat, hcallback, hnulls, hinherited, hpretty⟩
    rw [flags, flags, hformat, hcallback, hnulls, hinherited, hpretty]

end JsonPlan.Options
