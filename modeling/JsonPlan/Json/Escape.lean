/-!
The inside of a JSON string literal. Quotes, backslashes and controls are escaped; with `jsonp`
also the two separators that end a script's string literals.
-/

namespace JsonPlan.Json

/-- The lowercase hexadecimal digit of a number below sixteen. -/
def hexDigit (n : Nat) : Char := if n < 10 then Char.ofNat (48 + n) else Char.ofNat (87 + n)

/-- The chunks that stand for a character, if it cannot stand for itself. -/
def escape? (jsonp : Bool) (c : Char) : Option (List String) :=
  if c = '"' then some ["\\\""]
  else if c = '\\' then some ["\\\\"]
  else if c = '\n' then some ["\\n"]
  else if c = '\r' then some ["\\r"]
  else if c = '\t' then some ["\\t"]
  else if c = '\x08' then some ["\\b"]
  else if c = '\x0c' then some ["\\f"]
  else if jsonp && c = '\u2028' then some ["\\u2028"]
  else if jsonp && c = '\u2029' then some ["\\u2029"]
  else if c.toNat < 0x20 then
    some ["\\u00", (hexDigit (c.toNat / 16)).toString, (hexDigit (c.toNat % 16)).toString]
  else none

/-- The characters that stand for a character. -/
def escapeChars (jsonp : Bool) (c : Char) : List Char :=
  match escape? jsonp c with
  | none => [c]
  | some e => (String.join e).toList

/-- A part of an escaped text. -/
inductive Piece where
  /-- The bytes of the text from one place up to another, which stand for themselves. -/
  | run (start stop : String.Pos.Raw)
  /-- A character of the text, and the chunks that stand for it. -/
  | escape (c : Char) (chunks : List String)
  deriving DecidableEq, Repr

namespace Piece

/-- The bytes between two places, if there are any. -/
def between (start stop : String.Pos.Raw) : List Piece :=
  if start < stop then [.run start stop] else []

/-- The chunks of a part of `s`. -/
def chunks (s : String) : Piece → List String
  | run start stop => [start.extract s stop]
  | escape _ chunks => chunks

end Piece

/-- The parts of `s` that are left when its characters from `place` on are `cs` and the last escape
ended at `start`. -/
def piecesFrom (jsonp : Bool) (s : String) (start place : String.Pos.Raw) :
    List Char → List Piece
  | [] => Piece.between start s.rawEndPos
  | c :: cs =>
    match escape? jsonp c with
    | none => piecesFrom jsonp s start (place + c) cs
    | some chunks =>
      Piece.between start place ++
        .escape c chunks :: piecesFrom jsonp s (place + c) (place + c) cs

/-- A text cut at the characters that cannot stand for themselves. -/
def pieces (jsonp : Bool) (s : String) : List Piece := piecesFrom jsonp s 0 0 s.toList

/-- The escaped text in as few chunks as its escapes allow. -/
def escapedChunks (jsonp : Bool) (s : String) : List String :=
  (pieces jsonp s).flatMap (Piece.chunks s)

def escaped (jsonp : Bool) (s : String) : String := String.join (escapedChunks jsonp s)

/-- A string literal for plain JSON. -/
def quoted (s : String) : String := "\"" ++ escaped false s ++ "\""

/-- What stands before the value of a member: its quoted name and a colon. -/
def memberName (name : String) : String := quoted name ++ ":"

/-- The chunks of a string literal. -/
def quotedChunks (jsonp : Bool) (s : String) : List String :=
  "\"" :: (escapedChunks jsonp s ++ ["\""])

end JsonPlan.Json
