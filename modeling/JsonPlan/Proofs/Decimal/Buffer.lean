import JsonPlan.Decimal.Buffer
import JsonPlan.Proofs.Decimal.Canonical
import JsonPlan.Proofs.Machine.Writing

/-!
The buffer has a place for each digit of a word, and what it holds in the end is the numeral of the
word. So words with and without a sign have canonical numerals, which read back as the words.
-/

namespace JsonPlan.Decimal

open Json (isDigit)

/-! ## Bytes -/

theorem push_byte (v : UInt64) :
    48 + (v % 10).toUInt8 = (digitChar (v.toNat % 10)).val.toUInt8 := by
  have hall : ∀ d < 10, 48 + (UInt64.ofNat d).toUInt8 = (digitChar d).val.toUInt8 := by decide
  have hdigit : v % 10 = UInt64.ofNat (v.toNat % 10) := by
    rw [← UInt64.toNat_inj, UInt64.toNat_mod, UInt64.toNat_ofNat',
      Nat.mod_eq_of_lt (Nat.lt_of_lt_of_le (Nat.mod_lt _ (by decide)) (by decide : 10 ≤ 2 ^ 64))]
    rfl
  rw [hdigit]
  exact hall _ (Nat.mod_lt _ (by decide))

/-- A digit is encoded in one byte. -/
theorem utf8EncodeChar_of_isDigit {c : Char} (h : isDigit c = true) :
    String.utf8EncodeChar c = [c.val.toUInt8] := by
  refine String.utf8EncodeChar_eq_singleton (Char.utf8Size_eq_one_iff.mpr ?_)
  simp only [isDigit, Bool.and_eq_true, decide_eq_true_eq, Char.le_def] at h
  exact UInt32.le_trans h.2 (by decide)

namespace DigitBuffer

variable {b : DigitBuffer}

@[simp] theorem used_new : new.used = [] := by
  simp [new, used]

/-- As long as there is a place in front, it takes a byte. -/
theorem push_spec (h : 0 < b.start) (byte : UInt8) :
    ∃ b', b.push byte = some b' ∧ b'.used = byte :: b.used ∧ b'.start + 1 = b.start := by
  have hle := b.start_le
  refine ⟨_, dif_pos h, ?_, Nat.sub_add_cancel h⟩
  have hplace : b.start - 1 < b.places.toList.length := by
    rw [Vector.length_toList]
    omega
  have hdrop : b.places.toList.drop (b.start - 1) =
      b.places.toList[b.start - 1] :: b.places.toList.drop b.start := by
    rw [List.drop_eq_getElem_cons hplace, Nat.sub_add_cancel h]
  simp only [used, Vector.toList_set, List.drop_set, Nat.lt_irrefl, if_false, Nat.sub_self, hdrop,
    List.set_cons_zero]

/-- A word with no more digits than there are places left finds one for each of them. -/
theorem pushDigits_spec {v : UInt64} (hstart : 0 < b.start) (hv : v.toNat < 10 ^ b.start) :
    ∃ b', b.pushDigits v = some b' ∧
      b'.used = (digits v.toNat).map (fun c => c.val.toUInt8) ++ b.used := by
  fun_induction pushDigits b v with
  | case1 b v hfull =>
      obtain ⟨b', hpush, -⟩ := push_spec hstart (48 + (v % 10).toUInt8)
      rw [hfull] at hpush
      cases hpush
  | case2 b v b' hpush hlast =>
      obtain ⟨_, hpush', hused, -⟩ := push_spec hstart (48 + (v % 10).toUInt8)
      obtain rfl := Option.some.inj (hpush.symm.trans hpush')
      have hsmall : v.toNat < 10 := by
        have hzero := congrArg UInt64.toNat hlast
        rw [UInt64.toNat_div] at hzero
        exact Nat.lt_of_div_eq_zero (by decide) hzero
      refine ⟨_, rfl, ?_⟩
      rw [hused, push_byte, Nat.mod_eq_of_lt hsmall, digits_of_lt hsmall]
      rfl
  | case3 b v b' hpush hmore ih =>
      obtain ⟨_, hpush', hused, hplaces⟩ := push_spec hstart (48 + (v % 10).toUInt8)
      obtain rfl := Option.some.inj (hpush.symm.trans hpush')
      have hten : (10 : UInt64).toNat = 10 := rfl
      have hlarge : 10 ≤ v.toNat := by
        by_contra hsmall
        refine hmore (UInt64.toNat_inj.mp ?_)
        rw [UInt64.toNat_div, hten, Nat.div_eq_of_lt (Nat.not_le.mp hsmall)]
        rfl
      rw [← hplaces, Nat.pow_succ] at hv
      -- The digits that are left are one fewer, and so are the places.
      have hrest : v.toNat / 10 < 10 ^ b'.start := by omega
      have hstart' : 0 < b'.start := by
        by_contra hnone
        rw [Nat.eq_zero_of_not_pos hnone] at hv
        omega
      obtain ⟨b'', hdigits, hused'⟩ := ih hstart' (by rwa [UInt64.toNat_div, hten])
      refine ⟨b'', hdigits, ?_⟩
      rw [hused', hused, push_byte, UInt64.toNat_div, hten, digits_of_ge hlarge, List.map_append,
        List.append_assoc]
      rfl

/-- What is encoded in the bytes in use is the text of a buffer. -/
theorem text?_of_used {cs : List Char} (hcs : ∀ c ∈ cs, isDigit c = true)
    (h : b.used = cs.map fun c => c.val.toUInt8) : b.text? = some (.ofList cs) := by
  have hbytes : b.used.toByteArray = (String.ofList cs).toByteArray := by
    rw [String.toByteArray_ofList, List.utf8Encode, h, List.flatMap_def,
      List.map_congr_left fun c hc => utf8EncodeChar_of_isDigit (hcs c hc)]
    congr 1
    rw [← List.flatMap_def]
    exact List.map_eq_flatMap
  rw [text?, String.fromUTF8?, hbytes, dif_pos (String.isValidUTF8 _)]
  rfl

end DigitBuffer

/-! ## Words -/

/-- Twenty places are enough for any word. -/
theorem wordNumeral?_eq (v : UInt64) : wordNumeral? v = some (numeral v.toNat) := by
  have hv : v.toNat < 10 ^ DigitBuffer.new.start :=
    v.toNat_lt.trans (by decide : 2 ^ 64 < 10 ^ 20)
  obtain ⟨b, hdigits, hused⟩ := DigitBuffer.pushDigits_spec (by decide) hv
  rw [DigitBuffer.used_new, List.append_nil] at hused
  rw [wordNumeral?, hdigits]
  exact DigitBuffer.text?_of_used (fun c => isDigit_of_mem_digits) hused

/-- The magnitude of a word with a sign, that of the least one included. -/
theorem toNat_magnitude (v : Int64) :
    (if v < 0 then -v else v).toUInt64.toNat = v.toInt.natAbs := by
  have hword : v.toInt = if 2 * v.toUInt64.toNat < 2 ^ 64 then (v.toUInt64.toNat : Int)
      else (v.toUInt64.toNat : Int) - (2 ^ 64 : Nat) := BitVec.toInt_eq_toNat_cond v.toBitVec
  have hbound := v.toUInt64.toNat_lt
  have hsize : UInt64.size = 2 ^ 64 := rfl
  by_cases hv : v < 0
  · have hneg : v.toInt < 0 := Int64.lt_iff_toInt_lt.mp hv
    rw [if_pos hv, Int64.toUInt64_neg, UInt64.toNat_neg, hsize]
    split at hword <;> omega
  · have hnonneg : ¬ v.toInt < 0 := fun hneg => hv (Int64.lt_iff_toInt_lt.mpr hneg)
    rw [if_neg hv]
    split at hword <;> omega

theorem signedNumeral?_eq (v : Int64) : signedNumeral? v = some (intNumeral v.toInt) := by
  have hsign : v < 0 ↔ v.toInt < 0 := Int64.lt_iff_toInt_lt
  rw [signedNumeral?, wordNumeral?_eq, toNat_magnitude, intNumeral, intChunks]
  by_cases hv : v < 0
  · simp [if_pos hv, if_pos (hsign.mp hv)]
  · have hnonneg : ¬ v.toInt < 0 := fun hneg => hv (hsign.mpr hneg)
    simp [if_neg hv, if_neg hnonneg]

/-! ## Numerals -/

/-- `text` is the canonical numeral of `v`, and reads back as `v`. -/
structure Denotes (text : String) (v : Int) : Prop where
  canonical : ∃ d : Positional, d.text = text ∧ d.Canonical 0 ∧ (d.negative = true ↔ v < 0)
  reads : Json.parse text = some (.number ⟨v, 0⟩)

theorem denotes_intNumeral (v : Int) : Denotes (intNumeral v) v := by
  refine ⟨⟨⟨decide (v < 0), digits v.natAbs, []⟩, ?_, ?_, by simp⟩, (Json.reads_int v).parse⟩
  · rw [Positional.text, intNumeral, intChunks]
    by_cases hv : v < 0
    · simp [hv, numeral]
    · simp [hv, numeral]
  · exact {
      whole_ne_nil := digits_ne_nil _
      isDigit_whole := fun c => isDigit_of_mem_digits
      leading := digits_leading
      isDigit_fraction := by simp
      trailing := by simp
      length_fraction := Nat.zero_le 0
      signed := fun hsign => by
        have hv : v < 0 := of_decide_eq_true hsign
        obtain ⟨c, hc, hne⟩ := exists_mem_digits_ne (show 0 < v.natAbs by omega)
        exact ⟨c, List.mem_append_left _ hc, hne⟩ }

theorem Denotes.unique {text : String} {v w : Int} (hv : Denotes text v) (hw : Denotes text w) :
    v = w := by
  have hparse := hv.reads.symm.trans hw.reads
  simpa using hparse

theorem intNumeral_natCast (n : Nat) : intNumeral n = numeral n := by
  have hnonneg : ¬ (n : Int) < 0 := by omega
  simp [intNumeral, intChunks, if_neg hnonneg]

/-- The calls that write an integer are those of its chunks. -/
theorem int_into {σ : Type} [Sink σ] (style : Style) (v : Int64) (s : σ) :
    (Leaf.int.writing style (.int v)).into s = deliver s (Scalar.int v) := by
  have htrace : Leaf.int.trace style (.int v) = .emit (Scalar.int v) := rfl
  rw [Leaf.writing_eq, htrace, Trace.into_writing_emit]

/-- The numeral of a word needs no more than twenty places and is written in one call; a minus comes
before it in a call of its own. Numerals are canonical, the words are read back from them, and so no
two words share one. -/
theorem words_round_trip :
    (∀ v : UInt64, ∃ text, wordNumeral? v = some text ∧ text.length ≤ 20 ∧ Denotes text v.toNat ∧
      Scalar.uint v = [text] ∧
      ∀ {σ : Type} [Sink σ] (style : Style) (s : σ),
        (Leaf.int.writing style (.uint v)).into s = Sink.write s text) ∧
    (∀ v : Int64, ∃ text, signedNumeral? v = some text ∧ Denotes text v.toInt ∧
      String.join (Scalar.int v) = text ∧
      ∀ {σ : Type} [Sink σ] (style : Style) (s : σ),
        (Leaf.int.writing style (.int v)).into s = deliver s (Scalar.int v)) ∧
    (∀ v w : UInt64, wordNumeral? v = wordNumeral? w → v = w) ∧
    ∀ v w : Int64, signedNumeral? v = signedNumeral? w → v = w := by
  refine ⟨fun v => ⟨numeral v.toNat, wordNumeral?_eq v, ?_, ?_, rfl, fun _ _ => rfl⟩,
    fun v => ⟨intNumeral v.toInt, signedNumeral?_eq v, denotes_intNumeral _, rfl,
      fun style s => int_into style v s⟩, ?_, ?_⟩
  · rw [numeral, String.length_ofList]
    exact digitCount_le (by decide) (v.toNat_lt.trans (by decide))
  · rw [← intNumeral_natCast]
    exact denotes_intNumeral _
  · intro v w h
    rw [wordNumeral?_eq, wordNumeral?_eq, ← intNumeral_natCast, ← intNumeral_natCast] at h
    have hw := denotes_intNumeral w.toNat
    rw [← Option.some.inj h] at hw
    exact UInt64.toNat_inj.mp (Int.ofNat.inj ((denotes_intNumeral v.toNat).unique hw))
  · intro v w h
    rw [signedNumeral?_eq, signedNumeral?_eq] at h
    have hw := denotes_intNumeral w.toInt
    rw [← Option.some.inj h] at hw
    exact Int64.toInt_inj.mp ((denotes_intNumeral v.toInt).unique hw)

/-- The least word has the most digits of those with a sign. -/
theorem words_round_trip_least :
    signedNumeral? Int64.minValue = some "-9223372036854775808" ∧
      Denotes "-9223372036854775808" (-2 ^ 63) ∧
      ∀ v, signedNumeral? v = some "-9223372036854775808" → v = Int64.minValue := by
  have hleast : signedNumeral? Int64.minValue = some "-9223372036854775808" := by decide +kernel
  obtain ⟨-, hsigned, -, hdistinct⟩ := words_round_trip
  obtain ⟨text, htext, hdenotes, -⟩ := hsigned Int64.minValue
  obtain rfl := Option.some.inj (hleast.symm.trans htext)
  exact ⟨hleast, hdenotes, fun v hv => hdistinct _ _ (hv.trans hleast.symm)⟩

end JsonPlan.Decimal
