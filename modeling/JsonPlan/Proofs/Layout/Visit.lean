import JsonPlan.Layout.Visit

/-! What holds of all the views that a run meets holds of those that its parts meet. -/

namespace JsonPlan.Layout

variable {L K M : Layout} {v w x : View}

theorem Visits.trans (h : Visits L v K w) (hw : Visits K w M x) : Visits L v M x := by
  induction h with
  | here => exact hw
  | optional present _ ih => exact .optional present (ih hw)
  | item mem _ ih => exact .item mem (ih hw)
  | entry mem _ ih => exact .entry mem (ih hw)
  | member mem read _ ih => exact .member mem read (ih hw)

theorem Supplied.of_visits (h : Supplied L v) (hvisits : Visits L v K w) : Supplied K w :=
  fun owner members fields hw => h owner members fields (hvisits.trans hw)

theorem FiniteFloats.of_visits (h : FiniteFloats L v) (hvisits : Visits L v K w) :
    FiniteFloats K w :=
  fun a x hx => h a x (hvisits.trans hx)

theorem FiniteFloats.isFinite {a : Atom} (h : FiniteFloats (.atom a) v) : v.isFinite = true :=
  h a v .here

end JsonPlan.Layout
