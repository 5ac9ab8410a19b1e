import JsonPlan.Decimal.Shortest

/-!
Floats with a bounded number of fractional digits: `decimals` of them from one upwards and
`precision` below one, without zeros at the end. What is too small for its digits is `0`, and what
is not finite or too large to split keeps its natural text.
-/

namespace JsonPlan.Decimal

open Binary

/-- The digits kept after the point, by magnitude. -/
structure Precision where
  /-- Kept from one upwards. -/
  decimals : UInt32
  /-- Kept below one. -/
  precision : UInt32
  deriving DecidableEq, Repr

namespace Precision

def single : Precision := ⟨6, 7⟩
def double : Precision := ⟨10, 15⟩

/-- The most digits after the point whose value fits a word. -/
def maxScale : Nat := 17

/-- One more digit than asked for at most, saturating. -/
def guardDigits (p : Precision) : Nat :=
  min (UInt32.size - 1) (max p.decimals.toNat p.precision.toNat + 1)

/-- A power of ten as a double. Beyond `maxScale` the exponent is a signed word of 32 bits. -/
def guardPower (p : Precision) : Magnitude :=
  if p.guardDigits ≤ maxScale then .finite ((10 ^ p.guardDigits : Nat) : Rat)
  else .tenToThe (Int.bmod p.guardDigits UInt32.size)

/-- The double just below five that decides what rounds to nothing. -/
def justBelowFive : Rat :=
  match Magnitude.nearest (mkRat 4999999999999999 1_000_000_000_000_000) with
  | .finite r => r
  | .infinite => 5

/-- Values below this are written as zero. -/
def zeroBelow (p : Precision) : Magnitude := .quotient justBelowFive p.guardPower

/-- The number of digits after the point that a magnitude asks for. -/
def digits (p : Precision) (v : Rat) : Nat :=
  if 1 ≤ v then p.decimals.toNat else p.precision.toNat

/-- The number of digits after the point for a magnitude. -/
def scale (p : Precision) (v : Rat) : Nat := min maxScale (p.digits v)

end Precision

/-- Splitting into a whole part and a fraction ends here. -/
def splitLimit : Rat := pow10 18

/-- A decimal in two parts: `whole + fraction / 10 ^ scale`. -/
structure Split where
  whole : Nat
  fraction : Nat
  scale : Nat
  deriving DecidableEq, Repr

namespace Split

/-- A fraction that has rounded up to one joins the whole part. -/
def carry (s : Split) : Split :=
  if 10 ^ s.scale ≤ s.fraction then ⟨s.whole + 1, s.fraction - 10 ^ s.scale, s.scale⟩ else s

/-- Without the last digit of the fraction. -/
def drop (s : Split) : Split := ⟨s.whole, s.fraction / 10, s.scale - 1⟩

/-- Drops the zeros at the end of the fraction. -/
def strip (s : Split) : Split :=
  if 0 < s.fraction ∧ s.fraction % 10 = 0 then strip s.drop else s
termination_by s.fraction
decreasing_by
  rename_i hzero
  exact Nat.div_lt_self hzero.1 (by decide)

/-- What a value has behind its point, scaled. -/
def scaledFraction (v : Rat) (scale : Nat) : Rat := (v - v.floor) * ((10 ^ scale : Nat) : Rat)

/-- The value cut at its point, its fraction scaled as a double and rounded to the nearest whole
number with ties upwards. -/
def cut (v : Rat) (scale : Nat) : Split :=
  let fraction :=
    match Magnitude.nearest (scaledFraction v scale) with
    | .finite r => roundUp r
    | .infinite => 0
  ⟨v.floor.natAbs, fraction.natAbs, scale⟩

def ofMagnitude (v : Rat) (scale : Nat) : Split := (cut v scale).carry.strip

/-- The chunks of a split decimal: each zero after the point is one of its own. -/
def chunks (negative : Bool) (s : Split) : List String :=
  if s.whole = 0 ∧ s.fraction = 0 then ["0"]
  else
    (if negative then ["-"] else []) ++ numeral s.whole ::
      if s.fraction = 0 then []
      else "." :: (List.replicate (s.scale - digitCount s.fraction) "0" ++ [numeral s.fraction])

/-- The scaled whole number that a split decimal stands for, and its places. -/
def scaled (s : Split) : Nat × Nat :=
  if s.fraction = 0 then (s.whole, 0) else (s.whole * 10 ^ s.scale + s.fraction, s.scale)

end Split

/-- The chunks of a float under a precision. -/
def fixedChunks (p : Precision) : Datum → List String
  | .nan => naturalChunks .binary64 .nan
  | .infinite negative => naturalChunks .binary64 (.infinite negative)
  | .finite negative m q =>
    let v := (m : Rat) * pow2 q
    if v = 0 ∨ p.zeroBelow.exceeds v then ["0"]
    else if splitLimit ≤ v then naturalChunks .binary64 (.finite negative m q)
    else (Split.ofMagnitude v (p.scale v)).chunks negative

def fixed (p : Precision) (d : Datum) : String := String.join (fixedChunks p d)

end JsonPlan.Decimal
