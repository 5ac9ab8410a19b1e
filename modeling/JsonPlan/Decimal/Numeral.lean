import JsonPlan.Power

/-! Decimal numerals of naturals and integers. -/

namespace JsonPlan.Decimal

/-- The character of a digit below ten. -/
def digitChar (d : Nat) : Char := Char.ofNat (48 + d)

/-- The decimal digits of `n`, most significant first; zero has one digit. -/
def digits (n : Nat) : List Char :=
  if n < 10 then [digitChar n] else digits (n / 10) ++ [digitChar (n % 10)]

def numeral (n : Nat) : String := .ofList (digits n)

def digitCount (n : Nat) : Nat := (digits n).length

/-- The numeral of `n`, filled up with zeros on the left to at least `width` digits. -/
def padded (width n : Nat) : String :=
  .ofList (List.replicate (width - digitCount n) '0' ++ digits n)

/-- An integer is written in one chunk, after a chunk for its sign if it is negative. -/
def intChunks (v : Int) : List String :=
  if v < 0 then ["-", numeral v.natAbs] else [numeral v.natAbs]

def intNumeral (v : Int) : String := String.join (intChunks v)

end JsonPlan.Decimal
