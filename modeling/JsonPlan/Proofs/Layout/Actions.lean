import JsonPlan.Layout.Actions
import JsonPlan.Proofs.Program.Fusion
import JsonPlan.Proofs.Program.Nesting

/-! The actions of a layout nest and are fused, at every depth. -/

namespace JsonPlan

theorem Nested.around {body : List Action} (o : Opening) (h : Nested body) :
    Nested (o.around body) :=
  .region h .nil

theorem Fused.around {body : List Action} (o : Opening) (h : Fused body) :
    Fused (o.around body) :=
  (h.append rfl .nil).cons rfl

namespace Layout

/-! ## Equations -/

@[simp] theorem actions_atom (quoted : Bool) (a : Atom) :
    actions quoted (.atom a) = [.write (a.leaf quoted)] := by
  rw [actions]

@[simp] theorem actions_optional (quoted : Bool) (inner : Layout) :
    actions quoted (.optional inner) = Opening.nullable.around (actions true inner) := by
  rw [actions]

@[simp] theorem actions_sequence (quoted : Bool) (element : Layout) :
    actions quoted (.sequence element) = Opening.list.around (actions true element) := by
  rw [actions]

@[simp] theorem actions_map (quoted : Bool) (value : Layout) :
    actions quoted (.map value) = Opening.map.around (actions true value) := by
  rw [actions]

@[simp] theorem actions_composite (quoted : Bool) (owner : String)
    (members : List (Place × Layout)) :
    actions quoted (.composite owner members) =
      memberActions owner "\x7b" "" (members.map part) := by
  rw [actions]
  rfl

/-- Only an atom between quotes looks at who writes them. -/
theorem actions_eq_of_not_isStringLike {L : Layout} (h : L.isStringLike = false)
    (quoted : Bool) : actions quoted L = actions true L := by
  cases L with
  | atom a =>
      cases a with
      | string => simp [isStringLike, Atom.isStringLike] at h
      | primitive p =>
          cases p <;> simp_all [isStringLike, Atom.isStringLike, Atom.leaf, Primitive.leaf]
  | optional inner => simp
  | sequence element => simp
  | map value => simp
  | composite owner members => simp

/-! ## Invariants -/

theorem nested_memberActions {parts : List Part} (h : ∀ m ∈ parts, Nested m.body)
    (owner pending separator : String) :
    Nested (memberActions owner pending separator parts) := by
  induction parts generalizing pending separator with
  | nil => exact .literal _ .nil
  | cons m rest ih =>
      have hbody := h m (by simp)
      have hrest := ih (fun p hp => h p (by simp [hp])) m.quote ","
      exact .literal _ (.region (o := .member (m.place.ref owner)) hbody hrest)

theorem nested_actions (L : Layout) (quoted : Bool) : Nested (L.actions quoted) := by
  induction L generalizing quoted with
  | atom a =>
      rw [actions_atom]
      exact .write _
  | optional inner ih =>
      rw [actions_optional]
      exact (ih true).around .nullable
  | sequence element ih =>
      rw [actions_sequence]
      exact (ih true).around .list
  | map value ih =>
      rw [actions_map]
      exact (ih true).around .map
  | composite owner members ih =>
      rw [actions_composite]
      apply nested_memberActions
      intro p hp
      obtain ⟨m, hm, rfl⟩ := List.mem_map.mp hp
      exact ih m hm false

theorem fused_memberActions {parts : List Part} (h : ∀ m ∈ parts, Fused m.body)
    (owner pending separator : String) :
    Fused (memberActions owner pending separator parts) := by
  induction parts generalizing pending separator with
  | nil =>
      refine ⟨?_, .singleton _⟩
      intro text hmem
      simp only [memberActions, List.mem_singleton, Action.literal.injEq] at hmem
      simp [hmem]
  | cons m rest ih =>
      have hbody := h m (by simp)
      have hrest := ih (fun p hp => h p (by simp [hp])) m.quote ","
      have hregion := (hbody.append (a := .leave .member) rfl hrest).cons
        (a := .enter (.member (m.place.ref owner))) rfl
      refine hregion.literal_cons ?_ rfl
      simp [Json.memberName, Json.quoted]

theorem fused_actions (L : Layout) (quoted : Bool) : Fused (L.actions quoted) := by
  induction L generalizing quoted with
  | atom a =>
      rw [actions_atom]
      exact Fused.nil.cons rfl
  | optional inner ih =>
      rw [actions_optional]
      exact (ih true).around .nullable
  | sequence element ih =>
      rw [actions_sequence]
      exact (ih true).around .list
  | map value ih =>
      rw [actions_map]
      exact (ih true).around .map
  | composite owner members ih =>
      rw [actions_composite]
      apply fused_memberActions
      intro p hp
      obtain ⟨m, hm, rfl⟩ := List.mem_map.mp hp
      exact ih m hm false

@[simp] theorem actions_program (L : Layout) : L.program.actions = L.actions true :=
  actions_withSpans _

end Layout
end JsonPlan
