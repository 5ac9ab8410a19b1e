import JsonPlan.Power

/-! Binary floating-point words and what they denote. -/

namespace JsonPlan.Binary

/-- What a word denotes. A finite value is `significand * 2 ^ exponent`, with a sign. -/
inductive Datum where
  | nan
  | infinite (negative : Bool)
  | finite (negative : Bool) (significand : Nat) (exponent : Int)
  deriving DecidableEq, Repr

def Datum.isFinite : Datum → Bool
  | .finite .. => true
  | _ => false

/-- The widths of the two lower fields of a word; one bit for the sign stands above them. -/
structure Format where
  fractionBits : Nat
  exponentBits : Nat
  deriving DecidableEq, Repr

namespace Format

def binary32 : Format := ⟨23, 8⟩
def binary64 : Format := ⟨52, 11⟩

def bias (f : Format) : Int := 2 ^ (f.exponentBits - 1) - 1

/-- The exponent of the least bit of the smallest values. -/
def minExponent (f : Format) : Int := 1 - f.bias - f.fractionBits

def decode (f : Format) (word : Nat) : Datum :=
  let fraction := word % 2 ^ f.fractionBits
  let field := word / 2 ^ f.fractionBits % 2 ^ f.exponentBits
  let negative := word / 2 ^ (f.fractionBits + f.exponentBits) % 2 = 1
  if field = 2 ^ f.exponentBits - 1 then
    if fraction = 0 then .infinite negative else .nan
  else if field = 0 then .finite negative fraction f.minExponent
  else .finite negative (2 ^ f.fractionBits + fraction) (f.minExponent + (field - 1))

end Format

/-- A single-precision word. -/
structure Binary32 where
  bits : UInt32
  deriving DecidableEq, Repr

/-- A double-precision word. -/
structure Binary64 where
  bits : UInt64
  deriving DecidableEq, Repr

/-- The same value with its significand filled up to the width of a format, as far as the least
exponent allows. -/
def Datum.widen (f : Format) : Datum → Datum
  | .finite negative m q =>
    let shift := min (f.fractionBits - m.log2) (q - f.minExponent).toNat
    .finite negative (m * 2 ^ shift) (q - shift)
  | d => d

def Binary32.datum (x : Binary32) : Datum := Format.binary32.decode x.bits.toNat

def Binary64.datum (x : Binary64) : Datum := Format.binary64.decode x.bits.toNat

/-- Two to an integer power. -/
def pow2 : Int → Rat
  | .ofNat n => ((2 ^ n : Nat) : Rat)
  | .negSucc n => mkRat 1 (2 ^ (n + 1))

/-! ## Values -/

namespace Datum

/-- The number that a finite value is. -/
def value? : Datum → Option Rat
  | finite negative m q => some (if negative then -(m * pow2 q) else m * pow2 q)
  | _ => none

/-- The same with the other sign. -/
def neg : Datum → Datum
  | nan => nan
  | infinite negative => infinite !negative
  | finite negative m q => finite (!negative) m q

end Datum

/-- The word with the other sign: its top bit flips, and the carry out of it is lost. -/
def Binary64.neg (x : Binary64) : Binary64 := ⟨x.bits + 0x8000000000000000⟩

end JsonPlan.Binary
