import JsonPlan.Json.Escape
import JsonPlan.Output.Scalar
import JsonPlan.Output.Sink

/-!
Uses of sinks. Each call is made as soon as its turn comes, and the first one that is refused ends
the use. Scalars are written piece by piece, single characters as characters.
-/

namespace JsonPlan

/-- A use of a sink. -/
@[ext]
structure Writing (σ : Type) where
  /-- The sink after the use, and why the use ended early, if it did. -/
  into : σ → σ × Option Error

namespace Writing

variable {σ : Type}

def done : Writing σ := ⟨fun s => (s, none)⟩

def fail (e : Error) : Writing σ := ⟨fun s => (s, some e)⟩

/-- Goes on with `b` unless `a` has ended early. -/
def andThen (a b : Writing σ) : Writing σ where
  into s :=
    match a.into s with
    | (s', none) => b.into s'
    | (s', some e) => (s', some e)

instance : Append (Writing σ) := ⟨andThen⟩

/-- Once for each element. -/
def each {α : Type} (write : α → Writing σ) : List α → Writing σ
  | [] => done
  | a :: rest => write a ++ each write rest

end Writing

/-! ## Formatters -/

/-- A sink as a formatter sees it. Of a refusal the formatter learns only that there was one; the
reason is kept here. -/
structure FormatSink (σ : Type) where
  sink : σ
  refusal : Option Error

/-- Hands over the pieces of a formatter, and says whether all of them were taken. -/
def FormatSink.write {σ : Type} [Sink σ] (f : FormatSink σ) : List String → FormatSink σ × Bool
  | [] => (f, true)
  | piece :: rest =>
    match Sink.write f.sink piece with
    | (s, none) => FormatSink.write { f with sink := s } rest
    | (s, some e) => (⟨s, some e⟩, false)

namespace Writing

variable {σ : Type} [Sink σ]

def text (t : String) : Writing σ := ⟨fun s => Sink.write s t⟩

def char (c : Char) : Writing σ := ⟨fun s => Sink.writeChar s c⟩

/-- Writes what a formatter makes, piece by piece. -/
def display (pieces : List String) : Writing σ where
  into s :=
    match FormatSink.write ⟨s, none⟩ pieces with
    | (f, true) => (f.sink, none)
    | (f, false) => (f.sink, some (f.refusal.getD (.custom "formatting failed")))

/-! ## Strings -/

/-- A character that is escaped in the given chunks. Only a control has more than one: its code is
written digit by digit. -/
def escape (c : Char) : List String → Writing σ
  | [short] => text short
  | _ =>
    text "\\u00" ++ char (Json.hexDigit (c.toNat / 16)) ++ char (Json.hexDigit (c.toNat % 16))

/-- A part of `s`. -/
def piece (s : String) : Json.Piece → Writing σ
  | .run start stop => text (start.extract s stop)
  | .escape c chunks => escape c chunks

def escaped (jsonp : Bool) (s : String) : Writing σ := each (piece s) (Json.pieces jsonp s)

def quoted (jsonp : Bool) (s : String) : Writing σ := char '"' ++ escaped jsonp s ++ char '"'

/-! ## Numbers -/

open Decimal Binary

def int (v : Int) : Writing σ :=
  if v < 0 then char '-' ++ text (numeral v.natAbs) else text (numeral v.natAbs)

def split (negative : Bool) (s : Split) : Writing σ :=
  if s.whole = 0 ∧ s.fraction = 0 then text "0"
  else
    (if negative then char '-' else done) ++ text (numeral s.whole) ++
      if s.fraction = 0 then done
      else
        char '.' ++ each char (List.replicate (s.scale - digitCount s.fraction) '0') ++
          text (numeral s.fraction)

/-- A float under a precision. -/
def fixed (p : Precision) (d : Datum) : Writing σ :=
  match d with
  | .nan => display (naturalChunks .binary64 .nan)
  | .infinite negative => display (naturalChunks .binary64 (.infinite negative))
  | .finite negative m q =>
    let v := (m : Rat) * pow2 q
    if v = 0 ∨ p.zeroBelow.exceeds v then text "0"
    else if splitLimit ≤ v then display (naturalChunks .binary64 (.finite negative m q))
    else split negative (Split.ofMagnitude v (p.scale v))

/-! ## Identifiers and dates -/

def quotedGuid (g : Guid) : Writing σ := char '"' ++ text g.text ++ char '"'

def date (d : Calendar.Instant) : DateFormat → Writing σ
  | .iso8601 => char '"' ++ display [d.iso] ++ char '"'
  | .milliseconds => int d.milliseconds
  | .seconds => int d.seconds
  | .newtonsoft => text "\"\\/Date(" ++ int d.milliseconds ++ text ")\\/\""
  | .rfc1123 => char '"' ++ display [d.rfc1123] ++ char '"'

end Writing
end JsonPlan
