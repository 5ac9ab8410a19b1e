import JsonPlan.Binary.Format

/-!
Double-precision arithmetic on magnitudes: the exact result, rounded to the nearest double with
ties to the even one. A magnitude too large for a finite double is infinite.
-/

namespace JsonPlan.Binary

/-- The nearest integer, a tie going to the even neighbour. -/
def roundEven (x : Rat) : Int :=
  let below := x.floor
  let rest := x - below
  if rest < mkRat 1 2 then below
  else if mkRat 1 2 < rest then below + 1
  else if below % 2 = 0 then below else below + 1

/-- The nearest integer, a tie going up. -/
def roundUp (x : Rat) : Int := (x + mkRat 1 2).floor

/-- The integer `e` with `2 ^ e ≤ x < 2 ^ (e + 1)`, for a positive `x`. -/
def log2 (x : Rat) : Int :=
  let e : Int := (x.num.natAbs.log2 : Int) - x.den.log2
  if pow2 e ≤ x then e else e - 1

inductive Magnitude where
  | finite (value : Rat)
  | infinite
  deriving DecidableEq, Repr

namespace Magnitude

/-- The exponent of the least bit that a double near `x` has. -/
def leastBit (x : Rat) : Int := max (log2 x - 52) (-1074)

/-- The double nearest to `x`. -/
def nearest (x : Rat) : Magnitude :=
  let unit := pow2 (leastBit x)
  let r := roundEven (x / unit) * unit
  if r < pow2 1024 then .finite r else .infinite

/-- The rounded product of magnitudes of which none is zero. -/
def mul : Magnitude → Magnitude → Magnitude
  | .finite x, .finite y => nearest (x * y)
  | _, _ => .infinite

/-- The rounded quotient of a positive number by a magnitude. -/
def quotient (x : Rat) : Magnitude → Magnitude
  | .infinite => .finite 0
  | .finite y => if y = 0 then .infinite else nearest (x / y)

/-- Whether a finite number lies below a magnitude. -/
def exceeds : Magnitude → Rat → Bool
  | .infinite, _ => true
  | .finite y, x => x < y

/-- Multiplies `acc` by `base ^ n`, squaring `base` and rounding at every step. -/
def powFrom (acc base : Magnitude) (n : Nat) : Magnitude :=
  let acc := if n % 2 = 1 then acc.mul base else acc
  if n / 2 = 0 then acc else powFrom acc (base.mul base) (n / 2)

/-- An integer power of ten by repeated squaring; a negative power is the reciprocal. -/
def tenToThe (e : Int) : Magnitude :=
  let p := powFrom (.finite 1) (.finite 10) e.natAbs
  if e < 0 then quotient 1 p else p

end Magnitude
end JsonPlan.Binary
