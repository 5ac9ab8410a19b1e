import JsonPlan.Shape.Basic

/-! Walks through a schema that never return to a shape on their path, and so end. -/

namespace JsonPlan

/-- The number of shapes that a path has left out. -/
def offPath {n : Nat} (path : List (Fin n)) : Nat :=
  (List.finRange n).countP fun t => t ∉ path

theorem countP_lt_of_mem {α : Type} {p q : α → Bool} {l : List α} {a : α}
    (hq : ∀ x, q x → p x) (ha : a ∈ l) (hpa : p a) (hqa : ¬ q a) : l.countP q < l.countP p := by
  induction l with
  | nil => simp at ha
  | cons b l ih =>
    have hle : l.countP q ≤ l.countP p := List.countP_mono_left fun x _ => hq x
    rcases List.mem_cons.mp ha with rfl | hm
    · simp [hpa, hqa]; omega
    · have := ih hm
      simp only [List.countP_cons]
      by_cases hb : q b
      · simp [hb, hq b hb]; omega
      · simp [hb]; omega

theorem offPath_cons_lt {n : Nat} {path : List (Fin n)} {t : Fin n} (h : t ∉ path) :
    offPath (t :: path) < offPath path :=
  countP_lt_of_mem (a := t) (by simp) (List.mem_finRange t) (by simpa using h) (by simp)

end JsonPlan
