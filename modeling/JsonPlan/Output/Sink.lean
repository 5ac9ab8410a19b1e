import JsonPlan.Output.Trace

/-!
Destinations of text. Each takes chunks in order; one that refuses a chunk keeps what got through
and names the failure.
-/

namespace JsonPlan

class Sink (σ : Type) where
  write : σ → String → σ × Option Error
  /-- Takes one character. A sink may have a way of its own to do so. -/
  writeChar : σ → Char → σ × Option Error := fun s c => write s c.toString
  /-- Announces about how many bytes will come. A sink need not care. -/
  reserve : σ → Nat → σ := fun s _ => s
  /-- A character is taken as the text of that character is. -/
  writeChar_eq : ∀ s c, writeChar s c = write s c.toString := by intros; rfl

/-! ## Texts and bytes -/

instance : Sink String where
  write s c := (s ++ c, none)
  writeChar s c := (s.push c, none)
  reserve s _ := s
  writeChar_eq s c := by rw [Char.toString, String.push_eq_append]

instance : Sink ByteArray where
  write b c := (b ++ c.toUTF8, none)
  reserve b _ := b

/-! ## Writers -/

/-- A device that takes bytes as long as there is room. No `room` means no limit. -/
structure Writer where
  held : ByteArray
  room : Option Nat
  /-- What it says when the room is used up. -/
  reason : String

namespace Writer

/-- A writer that holds nothing yet. -/
def new (room : Option Nat) (reason : String := "sink full") : Writer := ⟨.empty, room, reason⟩

/-- Takes all the bytes if they fit; otherwise the part that fits, and fails. -/
def write (w : Writer) (bytes : ByteArray) : Writer × Option Error :=
  match w.room with
  | none => ({ w with held := w.held ++ bytes }, none)
  | some n =>
    if bytes.size ≤ n then
      ({ w with held := w.held ++ bytes, room := some (n - bytes.size) }, none)
    else ({ w with held := w.held ++ bytes.extract 0 n, room := some 0 }, some (.io w.reason))

end Writer

/-- A writer, and the number of bytes in the whole chunks that it took. -/
structure Metered where
  writer : Writer
  written : Nat

instance : Sink Metered where
  write m c :=
    match m.writer.write c.toUTF8 with
    | (w, none) => (⟨w, m.written + c.utf8ByteSize⟩, none)
    | (w, some e) => (⟨w, m.written⟩, some e)

/-! ## Recorders -/

/-- Keeps each chunk and each announcement. -/
structure Recorder where
  chunks : Array String
  reserved : Array Nat

def Recorder.new : Recorder := ⟨#[], #[]⟩

instance : Sink Recorder where
  write r c := ({ r with chunks := r.chunks.push c }, none)
  reserve r n := { r with reserved := r.reserved.push n }

/-! ## Sinks of a caller -/

/-- A sink with nothing but a way to take texts. -/
@[reducible]
def Sink.ofWrite {σ : Type} (put : σ → String → σ × Option Error) : Sink σ where
  write := put

/-! ## Sinks around sinks -/

/-- A sink that is lent out. It passes characters on as texts, also to a sink with a way of its own
to take them. -/
structure Borrowed (σ : Type) where
  inner : σ

instance {σ : Type} [Sink σ] : Sink (Borrowed σ) where
  write s c :=
    let (inner, refusal) := Sink.write s.inner c
    (⟨inner⟩, refusal)
  reserve s n := ⟨Sink.reserve s.inner n⟩

/-- Passes chunks on and counts the bytes that the inner sink took. -/
structure Counted (σ : Type) where
  inner : σ
  written : Nat

instance {σ : Type} [Sink σ] : Sink (Counted σ) where
  write s c :=
    match Sink.write s.inner c with
    | (inner, none) => (⟨inner, s.written + c.utf8ByteSize⟩, none)
    | (inner, some e) => (⟨inner, s.written⟩, some e)
  writeChar s c :=
    match Sink.writeChar s.inner c with
    | (inner, none) => (⟨inner, s.written + c.utf8Size⟩, none)
    | (inner, some e) => (⟨inner, s.written⟩, some e)
  reserve s n := { s with inner := Sink.reserve s.inner n }
  writeChar_eq s c := by rw [Sink.writeChar_eq, Char.toString, String.utf8ByteSize_singleton]

/-! ## Delivery -/

/-- Hands over chunks until one is refused. -/
def deliver {σ : Type} [Sink σ] (s : σ) : List String → σ × Option Error
  | [] => (s, none)
  | c :: cs =>
    match Sink.write s c with
    | (s', none) => deliver s' cs
    | (s', some e) => (s', some e)

/-- Delivers a trace. A refusal hides a failure that would have come later. -/
def Trace.into {σ : Type} [Sink σ] (t : Trace) (s : σ) : σ × Option Error :=
  match deliver s t.chunks with
  | (s', none) => (s', t.failure)
  | (s', some e) => (s', some e)

end JsonPlan
