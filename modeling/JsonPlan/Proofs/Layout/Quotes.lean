import JsonPlan.Proofs.Layout.Actions
import JsonPlan.Proofs.Plan.Compile
import JsonPlan.Proofs.Program.Quotes

/-!
The quotes in the program of a layout. However deep a composite lies in others, the literal that
closes a member's value is its own: the programs around it begin and end with markers.
-/

namespace JsonPlan

theorem Atom.quoted?_leaf (a : Atom) (quoted : Bool) :
    (a.leaf quoted).quoted? = if a.isStringLike then some quoted else none := by
  cases a with
  | string => rfl
  | primitive p => cases p <;> rfl

namespace Layout

/-- The part of a member leaves its quotes to the literals, or has no use for them. -/
def Part.Fits (p : Part) : Prop :=
  (p.quote = "\"" ∧ ∃ leaf : Leaf, leaf.quoted? = some false ∧ p.body = [.write leaf]) ∨
    (p.quote = "" ∧ (∃ a rest, p.body = a :: rest ∧ a.quoted? = none) ∧
      ∀ before, Tidy before p.body)

/-- Only an atom begins with a leaf that may have quotes. -/
theorem exists_head {L : Layout} (h : L.isStringLike = false) :
    ∃ a rest, L.actions true = a :: rest ∧ a.quoted? = none := by
  cases L with
  | atom a =>
      have hleaf : (a.leaf true).quoted? = none := by
        rw [a.quoted?_leaf, if_neg (by simpa [isStringLike] using h)]
      exact ⟨_, _, actions_atom true a, hleaf⟩
  | optional inner => exact ⟨_, _, actions_optional true inner, rfl⟩
  | sequence element => exact ⟨_, _, actions_sequence true element, rfl⟩
  | map value => exact ⟨_, _, actions_map true value, rfl⟩
  | composite owner members =>
      rw [actions_composite]
      cases members with
      | nil => exact ⟨_, _, rfl, rfl⟩
      | cons m rest => exact ⟨_, _, rfl, rfl⟩

theorem fits_part {m : Place × Layout} (h : ∀ before, Tidy before (m.2.actions true)) :
    (part m).Fits := by
  cases hstring : m.2.isStringLike with
  | true =>
      obtain ⟨place, layout⟩ := m
      cases layout with
      | atom a =>
          left
          refine ⟨by rw [part, quote, hstring, if_pos rfl], a.leaf false, ?_, actions_atom false a⟩
          rw [a.quoted?_leaf, if_pos (by simpa [isStringLike] using hstring)]
      | _ => cases hstring
  | false =>
      right
      have hbody : (part m).body = m.2.actions true := actions_eq_of_not_isStringLike hstring false
      rw [hbody]
      exact ⟨by rw [part, quote, hstring]; rfl, exists_head hstring, h⟩

/-- Behind a member comes a literal that first closes its quotes. -/
theorem exists_memberActions (owner pending : String) (parts : List Part) :
    ∃ delimiter follow rest,
      memberActions owner pending "," parts = .literal (pending ++ delimiter ++ follow) :: rest ∧
        (delimiter = "," ∨ delimiter = "\x7d") := by
  cases parts with
  | nil => exact ⟨"\x7d", "", [], by simp [memberActions], .inr rfl⟩
  | cons p rest =>
      refine ⟨",", Json.memberName p.place.name ++ p.quote, ?_⟩
      rw [memberActions, ← String.append_assoc]
      exact ⟨_, rfl, .inl rfl⟩

theorem tidy_memberActions {parts : List Part} (h : ∀ p ∈ parts, p.Fits) (owner : String)
    (before : List Action) (pending separator : String) :
    Tidy before (memberActions owner pending separator parts) := by
  induction parts generalizing before pending separator with
  | nil => exact Tidy.literal trivial
  | cons p rest ih =>
      have hrest := ih fun q hq => h q (by simp [hq])
      rcases h p (by simp) with ⟨hquote, leaf, hleaf, hbody⟩ | ⟨hquote, ⟨a, body, hbody, ha⟩, htidy⟩
      · obtain ⟨delimiter, follow, tail, htail, hdelimiter⟩ := exists_memberActions owner "\"" rest
        have hclosing := fun before => hrest before "\"" ","
        simp only [htail] at hclosing
        rw [memberActions, hquote, hbody, htail]
        exact Tidy.unquoted (m := p.place.ref owner) hleaf hdelimiter hclosing
      · rw [memberActions, hquote, String.append_empty, hbody]
        rw [hbody] at htidy
        exact Tidy.member (m := p.place.ref owner) ha htidy fun before => hrest before "" ","

theorem tidy_actions (L : Layout) (before : List Action) : Tidy before (L.actions true) := by
  induction L generalizing before with
  | atom a =>
      rw [actions_atom]
      refine ⟨.anywhere ?_ (by simp), trivial⟩
      rw [Action.quoted?, a.quoted?_leaf]
      split <;> simp
  | optional inner ih =>
      rw [actions_optional]
      exact Tidy.around (by simp) (ih _)
  | sequence element ih =>
      rw [actions_sequence]
      exact Tidy.around (by simp) (ih _)
  | map value ih =>
      rw [actions_map]
      exact Tidy.around (by simp) (ih _)
  | composite owner members ih =>
      rw [actions_composite]
      apply tidy_memberActions
      intro p hp
      obtain ⟨m, hm, rfl⟩ := List.mem_map.mp hp
      exact fits_part (ih m hm)

theorem folded_actions (L : Layout) : Folded (L.actions true) :=
  (fused_actions L true).folded (tidy_actions L [])

end Layout

namespace Schema

/-- Whatever was requested before, no literal of a program is empty or stands beside another. A
text, a character or an identifier is written without quotes exactly if it is the whole value of a
member, and then the literals around the member's region have the quotes. The name of each member
stands at the end of the literal before its region, and only the quote of such a value comes after
it. -/
theorem plan_folded {n : Nat} {S : Schema n} {c : PlanCache n} (hc : c.Reachable S) {t : Fin n}
    {includeInherited : Bool} {p : Program} (hp : (S.plan c t includeInherited).1 = .ok p) :
    Folded p.actions := by
  obtain ⟨L, -, rfl⟩ := hc.plan_eq_ok hp
  rw [L.actions_program]
  exact L.folded_actions

/-- The label is the whole value of its member, and the count is written with no quotes at all. -/
theorem plan_folded_labelled :
    ∃ p, ((labelled "x").plan .empty labelledRoot false).1 = .ok p ∧
      Enclosed [.literal "\x7b\"x\":\"", .enter (.member ⟨"x", "Labelled", 0⟩)]
        (p.actions.drop 3) ∧
      Introduced (p.actions.take 5) ⟨"count", "Labelled", 1⟩ (p.actions.drop 6) := by
  have hplan := plan_labelled "x" false
  have hactions : (labelledLayout "x").program.actions =
      [.literal "\x7b\"x\":\"", .enter (.member ⟨"x", "Labelled", 0⟩), .write (.string false),
        .leave .member, .literal "\",\"count\":", .enter (.member ⟨"count", "Labelled", 1⟩),
        .enter .nullable, .write .int, .leave .nullable, .leave .member, .literal "\x7d"] := by
    rw [Layout.actions_program, labelledLayout]
    simp only [Layout.actions_composite, List.map_cons, List.map_nil, Layout.part,
      Layout.actions_atom, Layout.actions_optional]
    decide +kernel
  have hfolded := plan_folded .empty hplan
  refine ⟨_, hplan, ?_, ?_⟩
  · rw [hactions] at hfolded ⊢
    exact (@Folded.leaf _ hfolded [_, _] _ _ _ rfl rfl).mp rfl
  · rw [hactions] at hfolded ⊢
    exact hfolded.member rfl

end Schema
end JsonPlan
