import JsonPlan.Text.Printable

/-! Texts and characters as a listing quotes them: hidden characters become `\u` escapes. -/

namespace JsonPlan.Text

/-- The lowercase hexadecimal numeral of a number, without leading zeros. -/
def hex (n : Nat) : String := .ofList (Nat.toDigits 16 n)

/-- One character between the quotation marks `mark`. -/
def quoteChar (mark c : Char) : String :=
  if c = '\n' then "\\n" else if c = '\r' then "\\r" else if c = '\t' then "\\t"
  else if c = '\x00' then "\\0" else if c = '\\' then "\\\\"
  else if c = mark then "\\" ++ mark.toString
  else if isPrintable c then c.toString
  else "\\u\x7b" ++ hex c.toNat ++ "\x7d"

def quoted (s : String) : String :=
  "\"" ++ String.join (s.toList.map (quoteChar '"')) ++ "\""

def quotedChar (c : Char) : String := "'" ++ quoteChar '\'' c ++ "'"

end JsonPlan.Text
