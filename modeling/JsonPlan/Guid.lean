import JsonPlan.Json.Escape
import JsonPlan.Power

/-! 128-bit identifiers. -/

namespace JsonPlan

structure Guid where
  value : BitVec 128
  deriving DecidableEq, Repr

namespace Guid

/-- The 32 hexadecimal digits, most significant first. -/
def hexDigits (g : Guid) : List Char :=
  (List.range 32).map fun i => Json.hexDigit (g.value.toNat / 16 ^ (31 - i) % 16)

/-- The lowercase digits in groups of 8, 4, 4, 4 and 12, joined by hyphens. -/
def text (g : Guid) : String :=
  let d := g.hexDigits
  .ofList (d.take 8 ++ '-' :: ((d.drop 8).take 4 ++ '-' :: ((d.drop 12).take 4 ++ '-' ::
    ((d.drop 16).take 4 ++ '-' :: d.drop 20))))

end Guid
end JsonPlan
