import JsonPlan.Binary.Rounding
import JsonPlan.Decimal.Numeral

/-!
The fewest digits that read back to a binary float, and their positional layout.
-/

namespace JsonPlan.Decimal

open Binary

/-- Ten to an integer power. -/
def pow10 : Int → Rat
  | .ofNat n => ((10 ^ n : Nat) : Rat)
  | .negSucc n => mkRat 1 (10 ^ (n + 1))

/-- The integer `e` with `10 ^ e ≤ x < 10 ^ (e + 1)`, for a positive `x`. -/
def log10 (x : Rat) : Int :=
  if 1 ≤ x then (digitCount x.floor.natAbs : Int) - 1
  else -(digitCount (x⁻¹.ceil.natAbs - 1) : Int)

/-- The numbers that round to one float; the ends belong to them if `closed`. -/
structure Interval where
  low : Rat
  high : Rat
  closed : Bool
  deriving Repr

def Interval.contains (i : Interval) (x : Rat) : Bool :=
  if i.closed then i.low ≤ x && x ≤ i.high else i.low < x && x < i.high

/-- The numbers nearest to `m * 2 ^ q`. Below a power of two the floats stand twice as close. -/
def Interval.around (f : Format) (m : Nat) (q : Int) : Interval :=
  let v := (m : Rat) * pow2 q
  let narrow := m = 2 ^ f.fractionBits ∧ f.minExponent < q
  { low := v - pow2 (if narrow then q - 2 else q - 1)
    high := v + pow2 (q - 1)
    closed := m % 2 = 0 }

/-- A decimal `coefficient * 10 ^ exponent`. -/
structure Scientific where
  coefficient : Nat
  exponent : Int
  deriving DecidableEq, Repr

def Scientific.value (s : Scientific) : Rat := (s.coefficient : Rat) * pow10 s.exponent

/-- Moves the zeros at the end of the coefficient into the exponent. -/
def Scientific.strip (s : Scientific) : Scientific :=
  if h : 0 < s.coefficient ∧ s.coefficient % 10 = 0 then
    Scientific.strip ⟨s.coefficient / 10, s.exponent + 1⟩
  else s
termination_by s.coefficient
decreasing_by exact Nat.div_lt_self h.1 (by decide)

/-- Of the two neighbours of `v` on the grid of multiples of `10 ^ e` the one in the interval;
of two hits the nearer, and of two equally near ones the greater. -/
def gridHit? (i : Interval) (v : Rat) (e : Int) : Option Scientific :=
  let below := (v / pow10 e).floor.natAbs
  let lower : Scientific := ⟨below, e⟩
  let upper : Scientific := ⟨below + 1, e⟩
  match i.contains lower.value, i.contains upper.value with
  | true, true => some (if v - lower.value < upper.value - v then lower else upper)
  | true, false => some lower
  | false, true => some upper
  | false, false => none

/-- The number of digits that always suffices for a double. -/
def maxDigits : Nat := 17

/-- The shortest decimal that reads back to `m * 2 ^ q`, for a positive `m`. -/
def shortest (f : Format) (m : Nat) (q : Int) : Scientific :=
  let v := (m : Rat) * pow2 q
  let i := Interval.around f m q
  let top := log10 v
  (((List.range maxDigits).findSome? fun k => gridHit? i v (top - (k : Nat))).getD ⟨m, 0⟩).strip

/-- Zeros are written in chunks of at most 64. -/
def zeroChunks (n : Nat) : List String :=
  List.replicate (n / 64) (.ofList (List.replicate 64 '0')) ++
    if n % 64 = 0 then [] else [.ofList (List.replicate (n % 64) '0')]

/-- Positional chunks of a decimal: no exponent, and no point in a whole number. -/
def Scientific.chunks (s : Scientific) : List String :=
  let ds := digits s.coefficient
  if 0 ≤ s.exponent then .ofList ds :: zeroChunks s.exponent.natAbs
  else
    let places := s.exponent.natAbs
    if places < ds.length then
      [.ofList (ds.take (ds.length - places)), ".", .ofList (ds.drop (ds.length - places))]
    else "0." :: (zeroChunks (places - ds.length) ++ [.ofList ds])

/-- The natural text of a float, in chunks. Zero keeps its sign. -/
def naturalChunks (f : Format) : Datum → List String
  | .nan => ["NaN"]
  | .infinite negative => (if negative then ["-"] else []) ++ ["inf"]
  | .finite negative m q =>
    (if negative then ["-"] else []) ++ if m = 0 then ["0"] else (shortest f m q).chunks

def natural (f : Format) (d : Datum) : String := String.join (naturalChunks f d)

end JsonPlan.Decimal
