import JsonPlan.Decimal.Numeral

/-!
Numerals of words of 64 bits, made in a buffer with a place for each digit. The digits come last one
first, so that the buffer is filled from its end.
-/

namespace JsonPlan.Decimal

/-- Twenty places for bytes, of which those from `start` on are in use. -/
structure DigitBuffer where
  places : Vector UInt8 20
  start : Nat
  start_le : start ≤ 20

namespace DigitBuffer

def new : DigitBuffer := ⟨.replicate 20 0, 20, Nat.le_refl 20⟩

/-- Uses one more place, in front of the others. A full buffer has none left. -/
def push (b : DigitBuffer) (byte : UInt8) : Option DigitBuffer :=
  if h : 0 < b.start then
    have hplace : b.start - 1 < 20 := by have := b.start_le; omega
    some ⟨b.places.set (b.start - 1) byte, b.start - 1, Nat.le_of_lt hplace⟩
  else none

/-- Pushes the digits of a word, the last one first. Zero has a digit too. -/
def pushDigits (b : DigitBuffer) (v : UInt64) : Option DigitBuffer :=
  match b.push (48 + (v % 10).toUInt8) with
  | none => none
  | some b' => if v / 10 = 0 then some b' else b'.pushDigits (v / 10)
termination_by v.toNat
decreasing_by
  rename_i hrest
  have hten : (10 : UInt64).toNat = 10 := rfl
  have hne : (v / 10).toNat ≠ 0 := fun hzero => hrest (UInt64.toNat_inj.mp hzero)
  rw [UInt64.toNat_div, hten] at hne ⊢
  omega

/-- The bytes in use. -/
def used (b : DigitBuffer) : List UInt8 := b.places.toList.drop b.start

/-- The text that the bytes in use encode, if they encode one. -/
def text? (b : DigitBuffer) : Option String := String.fromUTF8? b.used.toByteArray

end DigitBuffer

/-- The numeral of a word, if the buffer has a place for each of its digits. -/
def wordNumeral? (v : UInt64) : Option String := do (← DigitBuffer.new.pushDigits v).text?

/-- The numeral of a word with a sign. The least word is its own negation, which read without a sign
is its magnitude. -/
def signedNumeral? (v : Int64) : Option String := do
  let digits ← wordNumeral? (if v < 0 then -v else v).toUInt64
  return if v < 0 then "-" ++ digits else digits

end JsonPlan.Decimal
