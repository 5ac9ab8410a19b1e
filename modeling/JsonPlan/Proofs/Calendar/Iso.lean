import JsonPlan.Calendar.Reading
import JsonPlan.Machine.Writing
import JsonPlan.Proofs.Calendar.Civil
import JsonPlan.Proofs.Json.Numbers
import JsonPlan.Proofs.Output.Scalar
import JsonPlan.Proofs.Output.Writing

/-!
Dates are read back from their texts. Each reader takes from the front what was written there, and
the clock that is read is that of one instant.
-/

namespace JsonPlan.Calendar.Instant

open Decimal Json

variable {mark : Char} {rest : List Char}

/-! ## Fields -/

variable {c : Clock}

variable {t u : Instant}

/-- Each clock is that of an instant, and none of a leap second inside of a minute. -/
theorem Clock.Valid.admitted (h : c.Valid) : c.instant.Admitted ∧ ¬ c.instant.LeapsInside := by
  obtain ⟨-, hhour, hminute, hsecond, hfraction⟩ := h
  rw [nanosPerSecond] at hfraction
  constructor
  · simp only [Admitted, Clock.instant, nanosPerSecond]
    omega
  · simp only [LeapsInside, Clock.instant, nanosPerSecond]
    omega

theorem admitted_of_ofIso? {text : String} (h : ofIso? text = some t) :
    t.Admitted ∧ ¬ t.LeapsInside := by
  rw [ofIso?] at h
  split at h
  · split at h
    · rename_i hvalid
      rw [← Option.some.inj h]
      exact hvalid.admitted
    · cases h
  · cases h

/-- A day later the calendar shows the next date. -/
theorem date_clock_succ (t : Instant) :
    (Instant.mk (t.seconds + 86400) t.nanos).clock.date = t.clock.date.next := by
  have hdays : (Instant.mk (t.seconds + 86400) t.nanos).days = t.days + 1 := by
    simp only [days]
    omega
  rw [clock, clock, hdays]
  exact Civil.ofDays_succ t.days

/-! ## Documents -/

end JsonPlan.Calendar.Instant
