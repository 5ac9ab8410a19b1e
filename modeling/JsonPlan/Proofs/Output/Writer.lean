import JsonPlan.Proofs.Output.Sink

/-!
What arrives at a writer. As long as there is room it takes everything; of what is too much it takes
the bytes that fit, and nothing after them.
-/

namespace JsonPlan

/-! ## Chunks that fit -/

/-- The most chunks, from the first one on, that go into `room` bytes together. -/
structure LongestFit (chunks : List String) (room : Nat) (taken : List String) : Prop where
  initial : taken <+: chunks
  fits : (String.join taken).utf8ByteSize ≤ room
  longest : ∀ other, other <+: chunks → (String.join other).utf8ByteSize ≤ room →
    other.length ≤ taken.length

theorem utf8ByteSize_join_cons (chunk : String) (rest : List String) :
    (String.join (chunk :: rest)).utf8ByteSize =
      chunk.utf8ByteSize + (String.join rest).utf8ByteSize := by
  rw [String.join_cons, String.utf8ByteSize_append]

namespace LongestFit

variable {chunk : String} {rest taken : List String} {room : Nat}

theorem none_fits (h : room < chunk.utf8ByteSize) : LongestFit (chunk :: rest) room [] where
  initial := List.nil_prefix
  fits := Nat.zero_le _
  longest other hother hfits := by
    cases other with
    | nil => exact Nat.le_refl 0
    | cons first other =>
        obtain ⟨rfl, -⟩ := List.cons_prefix_cons.mp hother
        rw [utf8ByteSize_join_cons] at hfits
        omega

theorem cons (hchunk : chunk.utf8ByteSize ≤ room)
    (h : LongestFit rest (room - chunk.utf8ByteSize) taken) :
    LongestFit (chunk :: rest) room (chunk :: taken) where
  initial := List.cons_prefix_cons.mpr ⟨rfl, h.initial⟩
  fits := by
    have hfits := h.fits
    rw [utf8ByteSize_join_cons]
    omega
  longest other hother hfits := by
    cases other with
    | nil => exact Nat.zero_le _
    | cons first other =>
        obtain ⟨rfl, hrest⟩ := List.cons_prefix_cons.mp hother
        rw [utf8ByteSize_join_cons] at hfits
        have hlength := h.longest other hrest (by omega)
        exact Nat.succ_le_succ hlength

end LongestFit

/-! ## Writers -/

namespace Writer

/-- A writer after bytes for which it has room. -/
def took (w : Writer) (bytes : ByteArray) : Writer :=
  ⟨w.held ++ bytes, w.room.map (· - bytes.size), w.reason⟩

theorem took_empty (w : Writer) : w.took .empty = w := by
  rcases w with ⟨held, _ | room, reason⟩ <;> simp [took]

theorem took_took (w : Writer) (a b : ByteArray) : (w.took a).took b = w.took (a ++ b) := by
  rcases w with ⟨held, _ | room, reason⟩ <;>
    simp [took, ByteArray.append_assoc, ByteArray.size_append, Nat.sub_sub]

theorem took_new (room : Option Nat) (reason : String) (bytes : ByteArray) :
    (new room reason).took bytes = ⟨bytes, room.map (· - bytes.size), reason⟩ := by
  rw [new, took, ByteArray.empty_append]

theorem write_of_fits {w : Writer} {bytes : ByteArray} (h : ∀ room ∈ w.room, bytes.size ≤ room) :
    w.write bytes = (w.took bytes, none) := by
  rcases w with ⟨held, _ | room, reason⟩
  · rfl
  · simp only [write]
    rw [if_pos (h room rfl)]
    rfl

theorem write_of_overflow {held bytes : ByteArray} {room : Nat} {reason : String}
    (h : room < bytes.size) :
    write ⟨held, some room, reason⟩ bytes =
      (⟨held ++ bytes.extract 0 room, some 0, reason⟩, some (.io reason)) := by
  simp only [write]
  rw [if_neg (Nat.not_le.mpr h)]

end Writer

/-! ## Deliveries to writers -/

theorem write_metered_of_fits {w : Writer} {written : Nat} {chunk : String}
    (h : ∀ room ∈ w.room, chunk.utf8ByteSize ≤ room) :
    Sink.write (Metered.mk w written) chunk =
      (⟨w.took chunk.toUTF8, written + chunk.utf8ByteSize⟩, none) := by
  have hwrite : w.write chunk.toUTF8 = (w.took chunk.toUTF8, none) :=
    Writer.write_of_fits (by rwa [String.toUTF8, String.size_toByteArray])
  simp only [Sink.write, hwrite]

/-- A writer with room for all of the chunks takes them all. -/
theorem deliver_of_fits {w : Writer} {written : Nat} {chunks : List String}
    (h : ∀ room ∈ w.room, (String.join chunks).utf8ByteSize ≤ room) :
    deliver (Metered.mk w written) chunks =
      (⟨w.took (String.join chunks).toUTF8, written + (String.join chunks).utf8ByteSize⟩,
        none) := by
  induction chunks generalizing w written with
  | nil =>
      have hnothing : ("" : String).toUTF8 = .empty := String.toByteArray_empty
      rw [deliver, String.join_nil, hnothing, Writer.took_empty]
      rfl
  | cons chunk rest ih =>
      rw [utf8ByteSize_join_cons] at h
      have hchunk : ∀ room ∈ w.room, chunk.utf8ByteSize ≤ room := fun room hroom =>
        Nat.le_of_add_right_le (h room hroom)
      have hrest : ∀ room ∈ (w.took chunk.toUTF8).room, (String.join rest).utf8ByteSize ≤ room := by
        intro left hleft
        obtain ⟨room, hroom, rfl⟩ := Option.map_eq_some_iff.mp hleft
        rw [String.toUTF8, String.size_toByteArray]
        exact Nat.le_sub_of_add_le' (h room hroom)
      rw [deliver, write_metered_of_fits hchunk]
      simp only
      rw [ih hrest, Writer.took_took, Sink.toUTF8_join_cons, utf8ByteSize_join_cons, Nat.add_assoc]

theorem extract_append_of_size_le {a b : ByteArray} {room : Nat} (h : a.size ≤ room) :
    (a ++ b).extract 0 room = a ++ b.extract 0 (room - a.size) := by
  have hall : a.extract 0 (max room a.size) = a := ByteArray.extract_zero_max_size
  rw [Nat.max_eq_left h] at hall
  rw [ByteArray.extract_append, hall, Nat.zero_sub]

theorem extract_append_of_lt_size {a b : ByteArray} {room : Nat} (h : room < a.size) :
    (a ++ b).extract 0 room = a.extract 0 room := by
  have hnone : b.extract (0 - a.size) (room - a.size) = .empty :=
    ByteArray.extract_eq_empty_iff.mpr (by omega)
  rw [ByteArray.extract_append, hnone, ByteArray.append_empty]

/-- A writer without room for all of the chunks takes the first bytes for which it has room, counts
the chunks that went in whole, and gives its reason. -/
theorem deliver_of_overflow {held : ByteArray} {room : Nat} {reason : String} {written : Nat}
    {chunks : List String} (h : room < (String.join chunks).utf8ByteSize) :
    ∃ taken, LongestFit chunks room taken ∧
      deliver (Metered.mk ⟨held, some room, reason⟩ written) chunks =
        (⟨⟨held ++ (String.join chunks).toUTF8.extract 0 room, some 0, reason⟩,
          written + (String.join taken).utf8ByteSize⟩, some (.io reason)) := by
  induction chunks generalizing held room written with
  | nil => exact absurd h (Nat.not_lt_zero _)
  | cons chunk rest ih =>
      have hsize : chunk.toUTF8.size = chunk.utf8ByteSize := String.size_toByteArray
      rw [utf8ByteSize_join_cons] at h
      by_cases hchunk : chunk.utf8ByteSize ≤ room
      · have hrest : room - chunk.utf8ByteSize < (String.join rest).utf8ByteSize := by omega
        obtain ⟨taken, hfit, hdeliver⟩ :=
          @ih (held ++ chunk.toUTF8) _ (written + chunk.utf8ByteSize) hrest
        refine ⟨chunk :: taken, hfit.cons hchunk, ?_⟩
        have hwhole : chunk.toUTF8.size ≤ room := hsize.symm ▸ hchunk
        have hwrite : Sink.write (Metered.mk ⟨held, some room, reason⟩ written) chunk = _ :=
          write_metered_of_fits fun _ hroom => by rwa [← Option.some.inj hroom]
        rw [deliver, hwrite]
        simp only [Writer.took, Option.map_some]
        rw [hsize, hdeliver, Sink.toUTF8_join_cons, extract_append_of_size_le hwhole,
          hsize, utf8ByteSize_join_cons, ByteArray.append_assoc, Nat.add_assoc]
      · have hover : room < chunk.toUTF8.size := hsize.symm ▸ Nat.not_le.mp hchunk
        refine ⟨[], .none_fits (Nat.not_le.mp hchunk), ?_⟩
        rw [deliver, Sink.toUTF8_join_cons, extract_append_of_lt_size hover]
        simp only [Sink.write, Writer.write_of_overflow hover]
        rfl

end JsonPlan
