import JsonPlan.Program.Builder
import Mathlib.Data.List.Chain

/-! Fused action lists, in which no literal is empty and none stands beside another. -/

namespace JsonPlan

/-- What a builder accumulates: literals are neither empty nor side by side. -/
structure Fused (actions : List Action) : Prop where
  full : ∀ text, .literal text ∈ actions → text ≠ ""
  apart : actions.IsChain fun a b => a.isLiteral = false ∨ b.isLiteral = false

namespace Fused

theorem nil : Fused [] := ⟨by simp, .nil⟩

/-- Any action but a literal can stand before a fused list. -/
theorem cons {a : Action} {rest : List Action} (ha : a.isLiteral = false) (h : Fused rest) :
    Fused (a :: rest) := by
  refine ⟨?_, ?_⟩
  · intro text hmem
    rcases List.mem_cons.mp hmem with rfl | hmem
    · simp [Action.isLiteral] at ha
    · exact h.full text hmem
  · exact List.isChain_cons.mpr ⟨fun b _ => .inl ha, h.apart⟩

/-- A literal can stand before any other action. -/
theorem literal_cons {text : String} {a : Action} {rest : List Action} (ht : text ≠ "")
    (ha : a.isLiteral = false) (h : Fused (a :: rest)) : Fused (.literal text :: a :: rest) := by
  refine ⟨?_, List.isChain_cons_cons.mpr ⟨.inr ha, h.apart⟩⟩
  intro s hmem
  rcases List.mem_cons.mp hmem with hs | hmem
  · cases hs
    exact ht
  · exact h.full s hmem

/-- So can a literal before nothing. -/
theorem literal_head {text : String} {rest : List Action} (h : Fused rest) (ht : text ≠ "")
    (hrest : ∀ a ∈ rest.head?, a.isLiteral = false) : Fused (.literal text :: rest) := by
  cases rest with
  | nil => exact ⟨by simpa using ht, .singleton _⟩
  | cons a rest => exact h.literal_cons ht (hrest a rfl)

theorem head_of_literal {text : String} {rest : List Action} (h : Fused (.literal text :: rest)) :
    ∀ a ∈ rest.head?, a.isLiteral = false := by
  intro a ha
  exact ((List.isChain_cons.mp h.apart).1 a ha).resolve_left Bool.noConfusion

theorem tail {a : Action} {rest : List Action} (h : Fused (a :: rest)) : Fused rest :=
  ⟨fun text hmem => h.full text (List.mem_cons_of_mem a hmem), h.apart.tail⟩

theorem append {as bs : List Action} {a : Action} (ha : a.isLiteral = false) (h : Fused as)
    (hb : Fused bs) : Fused (as ++ a :: bs) := by
  have hright := hb.cons ha
  refine ⟨?_, ?_⟩
  · intro text hmem
    rcases List.mem_append.mp hmem with hmem | hmem
    · exact h.full text hmem
    · exact hright.full text hmem
  · refine List.isChain_append.mpr ⟨h.apart, hright.apart, ?_⟩
    intro x _ y hy
    simp only [List.head?_cons, Option.mem_some_iff] at hy
    subst y
    exact .inr ha

theorem reverse {as : List Action} (h : Fused as) : Fused as.reverse := by
  refine ⟨fun text hmem => h.full text (List.mem_reverse.mp hmem), List.isChain_reverse.mpr ?_⟩
  exact h.apart.imp fun _ _ => Or.symm

end Fused

/-! ## What a builder accumulates -/

namespace Builder

@[simp] theorem actions_empty : empty.actions = [] := rfl

/-- Whether the next literal would be fused with the last action. -/
def endsInLiteral (b : Builder) : Bool := (b.reversed.head?.map Action.isLiteral).getD false

theorem actions_push {b : Builder} {a : Action} (ha : a.isLiteral = false) :
    (b.push a).actions = b.actions ++ [a] := by
  cases a with
  | literal => simp [Action.isLiteral] at ha
  | enter => simp [push, actions]
  | leave => simp [push, actions]
  | write => simp [push, actions]

theorem endsInLiteral_push {b : Builder} {a : Action} (ha : a.isLiteral = false) :
    (b.push a).endsInLiteral = false := by
  cases a with
  | literal => simp [Action.isLiteral] at ha
  | enter => rfl
  | leave => rfl
  | write => rfl

theorem actions_literal {b : Builder} {text : String} (ht : text ≠ "")
    (hb : b.endsInLiteral = false) : (b.literal text).actions = b.actions ++ [.literal text] := by
  rcases b with ⟨_ | ⟨a, rest⟩⟩
  · simp [literal, ht, actions]
  · cases a with
    | literal => simp [endsInLiteral, Action.isLiteral] at hb
    | enter => simp [literal, ht, actions]
    | leave => simp [literal, ht, actions]
    | write => simp [literal, ht, actions]

/-- Two texts one after another are one text. -/
theorem literal_literal (b : Builder) (s t : String) :
    (b.literal s).literal t = b.literal (s ++ t) := by
  by_cases hs : s = ""
  · subst hs
    simp [literal]
  by_cases ht : t = ""
  · subst ht
    simp [literal]
  have hst : s ++ t ≠ "" := by simp [hs]
  rcases b with ⟨_ | ⟨a, rest⟩⟩
  · simp [literal, hs, ht, hst]
  · cases a with
    | literal last => simp [literal, hs, ht, hst, String.append_assoc]
    | _ => simp [literal, hs, ht, hst]

theorem actions_literal_literal {b : Builder} {first second : String} (hf : first ≠ "")
    (hb : b.endsInLiteral = false) :
    ((b.literal first).literal second).actions = b.actions ++ [.literal (first ++ second)] := by
  have hboth : first ++ second ≠ "" := by simp [hf]
  rw [literal_literal, actions_literal hboth hb]

/-- A fused list is appended as it is, unless its first literal joins the last one before it. -/
theorem actions_pushAll {as : List Action} (h : Fused as) {b : Builder}
    (hseam : b.endsInLiteral = false ∨ (as.head?.map Action.isLiteral).getD false = false) :
    (b.pushAll as).actions = b.actions ++ as := by
  induction as generalizing b with
  | nil => simp [pushAll]
  | cons a as ih =>
      have hstep : (b.push a).actions = b.actions ++ [a] := by
        by_cases ha : a.isLiteral = false
        · exact actions_push ha
        · cases a with
          | literal text =>
              have hb : b.endsInLiteral = false := by
                simpa [Action.isLiteral] using hseam
              exact actions_literal (h.full text (by simp)) hb
          | enter => simp [Action.isLiteral] at ha
          | leave => simp [Action.isLiteral] at ha
          | write => simp [Action.isLiteral] at ha
      have hnext : (b.push a).endsInLiteral = false ∨
          (as.head?.map Action.isLiteral).getD false = false := by
        by_cases ha : a.isLiteral = false
        · exact .inl (endsInLiteral_push ha)
        · right
          cases as with
          | nil => rfl
          | cons c cs =>
              have hchain := (List.isChain_cons_cons.mp h.apart).1
              simpa [ha] using hchain
      have hrest := ih h.tail hnext
      rw [pushAll, List.foldl_cons, ← pushAll, hrest, hstep]
      simp

theorem actions_region {o : Opening} {p : Program} (h : Fused p.actions) :
    (region o p).actions = .enter o :: (p.actions ++ [.leave o.region]) := by
  have hopen : (empty.push (.enter o)).actions = [.enter o] := actions_push rfl
  rw [region, extend, actions_push rfl,
    actions_pushAll h (.inl (endsInLiteral_push rfl)), hopen]
  simp

end Builder
end JsonPlan
