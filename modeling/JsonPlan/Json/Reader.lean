import JsonPlan.Json.Value

/-!
Reading JSON by the grammar of RFC 8259. Each reader takes what it reads off the front of the
characters and hands back the rest.
-/

namespace JsonPlan.Json

/-! ## Space and strings -/

def isSpace (c : Char) : Bool := c = ' ' || c = '\t' || c = '\n' || c = '\r'

def skipSpace (cs : List Char) : List Char := cs.dropWhile isSpace

/-- The value of a hexadecimal digit of either case. -/
def hexValue? (c : Char) : Option Nat :=
  if '0' ≤ c ∧ c ≤ '9' then some (c.toNat - 48)
  else if 'a' ≤ c ∧ c ≤ 'f' then some (c.toNat - 87)
  else if 'A' ≤ c ∧ c ≤ 'F' then some (c.toNat - 55)
  else none

/-- The 16-bit unit that four hexadecimal digits name. -/
def codeUnit? (a b c d : Char) : Option Nat := do
  return (((← hexValue? a) * 16 + (← hexValue? b)) * 16 + (← hexValue? c)) * 16 + (← hexValue? d)

/-- The character that stands after a backslash in its short escape. -/
def shortEscape? (c : Char) : Option Char :=
  if c = '"' ∨ c = '\\' ∨ c = '/' then some c
  else if c = 'n' then some '\n'
  else if c = 'r' then some '\r'
  else if c = 't' then some '\t'
  else if c = 'b' then some '\x08'
  else if c = 'f' then some '\x0c'
  else none

/-- Reads a string literal after its opening quote. Units that are halves of a character must come in
pairs. -/
def readString (cs : List Char) : Option (List Char × List Char) :=
  match cs with
  | [] => none
  | '"' :: r => some ([], r)
  | '\\' :: 'u' :: a :: b :: c :: d :: r =>
    match codeUnit? a b c d with
    | none => none
    | some u =>
      if u < 0xd800 ∨ 0xdfff < u then (readString r).map fun s => (Char.ofNat u :: s.1, s.2)
      else if u < 0xdc00 then
        match r with
        | '\\' :: 'u' :: e :: f :: g :: h :: r =>
          match codeUnit? e f g h with
          | none => none
          | some w =>
            if 0xdc00 ≤ w ∧ w ≤ 0xdfff then
              (readString r).map fun s =>
                (Char.ofNat (0x10000 + (u - 0xd800) * 0x400 + (w - 0xdc00)) :: s.1, s.2)
            else none
        | _ => none
      else none
  | '\\' :: c :: r =>
    match shortEscape? c with
    | none => none
    | some e => (readString r).map fun s => (e :: s.1, s.2)
  | c :: r =>
    if c.toNat < 0x20 ∨ c = '\\' then none else (readString r).map fun s => (c :: s.1, s.2)
termination_by cs.length
decreasing_by all_goals (simp only [List.length_cons]; omega)

/-! ## Numbers -/

def isDigit (c : Char) : Bool := '0' ≤ c && c ≤ '9'

/-- The value of a row of digits. -/
def digitsValue (ds : List Char) : Nat := ds.foldl (fun n d => n * 10 + (d.toNat - 48)) 0

/-- Reads at least one digit. -/
def readDigits (cs : List Char) : Option (List Char × List Char) :=
  match cs.takeWhile isDigit with
  | [] => none
  | ds => some (ds, cs.dropWhile isDigit)

/-- Reads the whole part of a number: a single zero, or digits that begin with another. -/
def readWhole : List Char → Option (List Char × List Char)
  | '0' :: r => some (['0'], r)
  | cs => readDigits cs

/-- Reads a point and digits, if a point comes next. -/
def readFraction : List Char → Option (List Char × List Char)
  | '.' :: r => readDigits r
  | cs => some ([], cs)

/-- Reads an exponent, if one comes next. -/
def readExponent : List Char → Option (Int × List Char)
  | c :: r =>
    if c = 'e' ∨ c = 'E' then
      match r with
      | '-' :: r => (readDigits r).map fun d => (-(digitsValue d.1 : Int), d.2)
      | '+' :: r => (readDigits r).map fun d => ((digitsValue d.1 : Int), d.2)
      | r => (readDigits r).map fun d => ((digitsValue d.1 : Int), d.2)
    else some (0, c :: r)
  | [] => some (0, [])

/-- `mantissa / 10 ^ places * 10 ^ e`. -/
def Number.scaled (n : Number) (e : Int) : Number :=
  ⟨n.mantissa * 10 ^ (e - n.places).toNat, (n.places - e).toNat⟩

/-- Reads a number after its sign. -/
def readUnsigned (cs : List Char) : Option (Number × List Char) := do
  let (whole, cs) ← readWhole cs
  let (fraction, cs) ← readFraction cs
  let (e, cs) ← readExponent cs
  return (Number.scaled ⟨digitsValue (whole ++ fraction), fraction.length⟩ e, cs)

def readNumber : List Char → Option (Number × List Char)
  | '-' :: cs => (readUnsigned cs).map fun n => (⟨-n.1.mantissa, n.1.places⟩, n.2)
  | cs => readUnsigned cs

/-! ## Values -/

/-- Reads a string literal and the colon after it. -/
def readKey (cs : List Char) : Option (String × List Char) :=
  match cs with
  | '"' :: r =>
    match readString r with
    | none => none
    | some (key, r) =>
      match skipSpace r with
      | ':' :: r => some (.ofList key, skipSpace r)
      | _ => none
  | _ => none

mutual

/-- Reads a value that no space comes before. `fuel` bounds the readers inside each other. -/
def readValue : Nat → List Char → Option (Json × List Char)
  | 0, _ => none
  | _ + 1, 'n' :: 'u' :: 'l' :: 'l' :: r => some (.null, r)
  | _ + 1, 't' :: 'r' :: 'u' :: 'e' :: r => some (.bool true, r)
  | _ + 1, 'f' :: 'a' :: 'l' :: 's' :: 'e' :: r => some (.bool false, r)
  | _ + 1, '"' :: r => (readString r).map fun s => (.string (.ofList s.1), s.2)
  | fuel + 1, '[' :: r =>
    match skipSpace r with
    | ']' :: r => some (.array [], r)
    | r => (readItems fuel r).map fun x => (.array x.1, x.2)
  | fuel + 1, '{' :: r =>
    match skipSpace r with
    | '}' :: r => some (.object [], r)
    | r => (readEntries fuel r).map fun x => (.object x.1, x.2)
  | _ + 1, cs => (readNumber cs).map fun n => (.number n.1, n.2)

/-- Reads values up to the bracket that closes their array. -/
def readItems : Nat → List Char → Option (List Json × List Char)
  | 0, _ => none
  | fuel + 1, cs =>
    match readValue fuel cs with
    | none => none
    | some (j, r) =>
      match skipSpace r with
      | ',' :: r => (readItems fuel (skipSpace r)).map fun x => (j :: x.1, x.2)
      | ']' :: r => some ([j], r)
      | _ => none

/-- Reads names and values up to the brace that closes their object. -/
def readEntries : Nat → List Char → Option (List (String × Json) × List Char)
  | 0, _ => none
  | fuel + 1, cs =>
    match readKey cs with
    | none => none
    | some (key, r) =>
      match readValue fuel r with
      | none => none
      | some (j, r) =>
        match skipSpace r with
        | ',' :: r => (readEntries fuel (skipSpace r)).map fun x => ((key, j) :: x.1, x.2)
        | '}' :: r => some ([(key, j)], r)
        | _ => none

end

/-- Without fuel nothing is read. -/
theorem readValue_zero (cs : List Char) : readValue 0 cs = none := by
  rw [readValue]

/-- Reads a document: one value, with nothing but space around it. -/
def parse (s : String) : Option Json :=
  match readValue (2 * s.toList.length + 2) (skipSpace s.toList) with
  | some (j, r) => if skipSpace r = [] then some j else none
  | none => none

end JsonPlan.Json
