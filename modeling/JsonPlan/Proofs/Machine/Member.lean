import JsonPlan.Machine.Member
import JsonPlan.Proofs.Machine.Refinement
import JsonPlan.Proofs.Plan.Requests

/-!
Members between quotes that belong to the composite. A composite's program writes for a member what
the member's own program writes, except for an absent value where text is expected: the quotes are
written all the same.
-/

namespace JsonPlan

variable {style : Style} {v : View}

namespace Layout

theorem run_program (L : Layout) (style : Style) (v : View) :
    (runInto style L.program.steps v).into "" =
      ((trace style true L v).text, (trace style true L v).failure) := by
  rw [runInto_eq]
  exact Trace.into_empty _

theorem text_trace_null {L : Layout} (h : L.isStringLike = true) (quoted : Bool) :
    (trace style quoted L .null).text = "null" := by
  cases L with
  | atom a => rw [trace_atom, Leaf.text_trace, Leaf.text_null]
  | _ => simp [isStringLike] at h

end Layout

namespace Schema

variable {n : Nat} {S : Schema n} {includeInherited : Bool}

theorem alone_eq {t : Fin n} {L : Layout} (h : S.Unfolds includeInherited t L) (v : View) :
    S.alone includeInherited style t v =
      ((L.trace style true v).text, (L.trace style true v).failure) := by
  rw [alone, fresh_eq, layout_eq_ok_iff.mpr h]
  exact L.run_program style v

variable (S includeInherited) in
/-- A member and its place in the layout of the composite. -/
def Placed (m : Member n) (p : Place × Layout) : Prop :=
  p.1 = m.toPlace ∧ S.Unfolds includeInherited m.shape p.2

theorem Unfolds.exists_placed {t : Fin n} {L : Layout} {owner : String}
    {members : List (Member n)} (h : S.Unfolds includeInherited t L)
    (hkind : (S t).kind = .composite owner members) :
    ∃ inner, L = .composite owner inner ∧
      List.Forall₂ (S.Placed includeInherited) (Member.order members includeInherited) inner := by
  cases h with
  | @composite _ owner' members' inner kind places unfolds =>
      rw [kind] at hkind
      cases hkind
      refine ⟨inner, rfl, List.forall₂_iff_zip.mpr ⟨(forall₂_places places).length_eq, ?_⟩⟩
      intro m p hmem
      exact ⟨fst_eq_of_mem_zip places hmem, unfolds _ hmem⟩
  | _ => simp_all

/-! ## Members of a composite -/

section Members

variable {fields : List View}

theorem Placed.text (owner : String) {m : Member n} {p : Place × Layout} (h : S.Placed includeInherited m p)
    (hpasses : S.Passes includeInherited style fields m) :
    (Layout.memberTrace style owner (.object owner fields) p).failure = none ∧
      Layout.memberText style owner (.object owner fields) p =
        m.escapedName ++ S.memberValue includeInherited style fields m := by
  rcases p with ⟨_, L⟩
  obtain ⟨rfl, hL⟩ := h
  have hlike : L.isStringLike = (S m.shape).kind.isStringLike := hL.isStringLike_eq
  rw [Layout.memberText, memberValue, ← hlike]
  cases hw : fields[m.slot]? with
  | none =>
      have hdone : Layout.memberTrace style owner (.object owner fields) (m.toPlace, L) = .done := by
        simp [Layout.memberTrace, Opening.trace, Place.ref, Member.toPlace, hw]
      rw [hdone, Layout.quote]
      refine ⟨rfl, ?_⟩
      cases L.isStringLike
      · simp [Member.toPlace, Member.escapedName]
      · simp [Member.toPlace, Member.escapedName, String.append_assoc]
  | some w =>
      have hown := hpasses w hw
      rw [alone_eq hL] at hown
      have htext := Layout.text_between_quotes hown
      rw [Layout.memberTrace_object rfl hw]
      refine ⟨Layout.failure_between_quotes.mpr hown, ?_⟩
      simp only [alone_eq hL, ← htext, Member.toPlace, Member.escapedName, String.append_assoc]

/-- What comes behind a member whose closing quote is still `pending`. -/
theorem exists_resumes {after : List (Member n)} {inner : List (Place × Layout)}
    (h : List.Forall₂ (S.Placed includeInherited) after inner) (style : Style) (owner : String)
    (v : View) (pending : String) :
    ∃ rest, Member.Resumes after rest ∧
      (Layout.membersTrace style owner v pending "," inner).text = pending ++ rest := by
  cases h with
  | nil => exact ⟨"\x7d", rfl, by simp [Layout.membersTrace_nil]⟩
  | @cons m p _ _ hp _ =>
      rw [Layout.membersTrace_cons, Trace.text_append rfl, hp.1]
      generalize (Layout.memberTrace style owner v p ++ _ : Trace).text = more
      refine ⟨"," ++ m.escapedName ++ (p.2.quote ++ more), ⟨_, rfl⟩, ?_⟩
      simp [Member.toPlace, Member.escapedName, String.append_assoc]

/-- Members that pass stand behind their names, one after another. -/
theorem exists_text_membersTrace {before after : List (Member n)} {m : Member n}
    {inner : List (Place × Layout)}
    (h : List.Forall₂ (S.Placed includeInherited) (before ++ m :: after) inner)
    (hbefore : ∀ b ∈ before, S.Passes includeInherited style fields b)
    (hm : S.Passes includeInherited style fields m) (owner pending separator : String) :
    ∃ rest, Member.Resumes after rest ∧
      (Layout.membersTrace style owner (.object owner fields) pending separator inner).text =
        pending ++ separator ++ String.join (before.map fun b =>
          b.escapedName ++ S.memberValue includeInherited style fields b ++ ",") ++
        (m.escapedName ++ S.memberValue includeInherited style fields m ++ rest) := by
  -- The closing quote of a member is in the literal behind it, where it goes on as `pending`.
  induction before generalizing inner pending separator with
  | nil =>
      cases h with
      | @cons _ p _ _ hp hrest =>
          obtain ⟨hok, htext⟩ := hp.text owner hm
          obtain ⟨rest, hresumes, hafter⟩ := exists_resumes hrest style owner
            (.object owner fields) p.2.quote
          refine ⟨rest, hresumes, ?_⟩
          rw [Layout.membersTrace_cons, Trace.text_append rfl, Trace.text_append hok, hafter, ← htext]
          simp [Layout.memberText, String.append_assoc]
  | cons b before ih =>
      cases h with
      | @cons _ p _ _ hp hrest =>
          obtain ⟨hok, htext⟩ := hp.text owner (hbefore b List.mem_cons_self)
          obtain ⟨rest, hresumes, hbehind⟩ := ih hrest
            (fun u hu => hbefore u (List.mem_cons_of_mem b hu)) p.2.quote ","
          refine ⟨rest, hresumes, ?_⟩
          rw [Layout.membersTrace_cons, Trace.text_append rfl, Trace.text_append hok, hbehind,
            List.map_cons, String.join_cons, ← htext]
          simp [Layout.memberText, String.append_assoc]

/-- A member's value is what its own program writes, unless it is absent and string-like. -/
theorem memberValue_eq_iff {m : Member n} {K : Layout} (hK : S.Unfolds includeInherited m.shape K)
    {w : View} (hw : fields[m.slot]? = some w) :
    S.memberValue includeInherited style fields m = (S.alone includeInherited style m.shape w).1 ↔
      ¬ ((S m.shape).kind.isStringLike ∧ w.isNull) := by
  rw [memberValue, hw]
  simp only [Bool.and_eq_true]
  split
  · -- The shape's own program writes `null` without quotes.
    rename_i habsent
    obtain ⟨hlike, hnull⟩ := habsent
    rw [alone_eq hK, View.eq_null_of_isNull hnull,
      Layout.text_trace_null (hK.isStringLike_eq.trans hlike)]
    simp [hlike, View.isNull]
  · simp_all

end Members

/-- A composite that has a program writes a member behind its name and in front of the next comma or
the closing brace, whatever the other members are, once those before it have been written. What it
writes there is what the member's own program writes, except where the member is string-like and
shows `null`: its own program writes `null`, the composite a quoted `"null"`. -/
theorem composite_writes_member {c : PlanCache n} (hc : c.Reachable S) {t : Fin n} {owner : String}
    {members : List (Member n)} (hkind : (S t).kind = .composite owner members) {p : Program}
    (hp : (S.plan c t includeInherited).1 = .ok p) {before after : List (Member n)} {m : Member n}
    (horder : Member.order members includeInherited = before ++ m :: after) :
    ∃ q, (∀ c' : PlanCache n, c'.Reachable S → (S.plan c' m.shape includeInherited).1 = .ok q) ∧
      ∀ style fields w text, fields[m.slot]? = some w →
        (runInto style q.steps w).into "" = (text, none) →
        (∀ b ∈ before, S.Passes includeInherited style fields b) →
        ∃ rest, Member.Resumes after rest ∧
          ((runInto style p.steps (.object owner fields)).into "").1 =
            "\x7b" ++ String.join (before.map fun b =>
              b.escapedName ++ S.memberValue includeInherited style fields b ++ ",") ++
            (m.escapedName ++ S.memberValue includeInherited style fields m ++ rest) ∧
          (S.memberValue includeInherited style fields m = text ↔
            ¬ ((S m.shape).kind.isStringLike ∧ w.isNull)) := by
  obtain ⟨L, hlayout, rfl⟩ := hc.plan_eq_ok hp
  have hL := layout_eq_ok_iff.mp hlayout
  have hmem : m ∈ Member.order members includeInherited := by simp [horder]
  obtain ⟨K, hK, -⟩ := (Refers.member hkind hmem).inside L hL
  obtain ⟨inner, rfl, hinner⟩ := hL.exists_placed hkind
  rw [horder] at hinner
  refine ⟨K.program, fun c' hc' => ?_, fun style fields w text hw hown hbefore => ?_⟩
  · rw [(plan_eq hc'.sound m.shape).1, layout_eq_ok_iff.mpr hK]
    rfl
  · have halone : S.alone includeInherited style m.shape w = (text, none) := by
      rw [alone_eq hK, ← K.run_program, hown]
    have hm : S.Passes includeInherited style fields m := by
      intro u hu
      obtain rfl := Option.some.inj (hw.symm.trans hu)
      rw [halone]
    obtain ⟨rest, hresumes, hrun⟩ := exists_text_membersTrace hinner hbefore hm owner "\x7b" ""
    refine ⟨rest, hresumes, ?_, ?_⟩
    · rw [Layout.run_program, Layout.trace_composite]
      simpa only [String.append_empty] using hrun
    · have hvalue : S.memberValue includeInherited style fields m =
          (S.alone includeInherited style m.shape w).1 ↔ _ := memberValue_eq_iff hK hw
      rwa [halone] at hvalue

theorem plan_labelled_text (includeInherited : Bool) :
    ((labelled "x").plan .empty 1 includeInherited).1 = .ok (Layout.atom .string).program := by
  rw [(plan_eq (PlanCache.sound_empty _) 1).1, layout_eq_ok_iff.mpr (.string rfl)]
  rfl

theorem composite_writes_member_labelled :
    ∃ p rest, ((labelled "x").plan .empty labelledRoot false).1 = .ok p ∧
      ((runInto ⟨.iso8601, false⟩ p.steps (.object "Labelled" [.str "y", .null])).into "").1 =
        "\x7b\"x\":\"y\"" ++ rest ∧ ∃ more, rest = ",\"count\":" ++ more := by
  have horder : Member.order [⟨"x", .field 0, false, 1, 0⟩, ⟨"count", .field 24, false, 2, 1⟩] false =
      [] ++ (⟨"x", .field 0, false, 1, 0⟩ : Member 4) :: [⟨"count", .field 24, false, 2, 1⟩] := by
    decide
  obtain ⟨q, hq, hwrites⟩ := composite_writes_member (S := labelled "x") .empty rfl
    (plan_labelled "x" false) horder
  obtain rfl := Except.ok.inj ((plan_labelled_text false).symm.trans (hq _ .empty))
  have hown : (runInto ⟨.iso8601, false⟩ (Layout.atom .string).program.steps (.str "y")).into "" =
      ("\"y\"", none) := by
    rw [Layout.run_program, Layout.trace_atom]
    decide
  obtain ⟨rest, ⟨more, hrest⟩, htext, hvalue⟩ := hwrites _ [.str "y", .null] (.str "y") "\"y\"" rfl hown
    (by simp)
  refine ⟨_, rest, plan_labelled "x" false, ?_, more, ?_⟩
  · rw [htext, hvalue.mpr (by simp [View.isNull])]
    have hname : Member.escapedName (n := 4) ⟨"x", .field 0, false, 1, 0⟩ = "\"x\":" := by decide
    rw [hname, ← String.append_assoc]
    rfl
  · have hname : Member.escapedName (n := 4) ⟨"count", .field 24, false, 2, 1⟩ = "\"count\":" := by
      decide
    rw [hrest, hname]
    rfl

/-- Where a text is absent, its own program writes `null`, and the composite a text that says so. -/
theorem composite_quotes_null_labelled :
    ∃ p q, ((labelled "x").plan .empty labelledRoot false).1 = .ok p ∧
      ((labelled "x").plan .empty 1 false).1 = .ok q ∧
      (runInto ⟨.iso8601, false⟩ q.steps .null).into "" = ("null", none) ∧
      (runInto ⟨.iso8601, false⟩ p.steps (.object "Labelled" [.null, .null])).into "" =
        ("\x7b\"x\":\"null\",\"count\":null\x7d", none) ∧
      ∀ rest, "\x7b\"x\":\"null\",\"count\":null\x7d" ≠ "\x7b\"x\":null" ++ rest := by
  refine ⟨_, _, plan_labelled "x" false, plan_labelled_text false, ?_, ?_, ?_⟩
  · rw [Layout.run_program, Layout.trace_atom]
    rfl
  · rw [Layout.run_program, labelledLayout, Layout.trace_composite]
    rw [Layout.membersTrace_cons, Layout.membersTrace_cons, Layout.membersTrace_nil,
      Layout.memberTrace_object rfl rfl, Layout.memberTrace_object rfl rfl, Layout.trace_atom,
      Layout.trace_optional]
    decide
  · intro rest h
    simpa using congrArg String.toList h

end Schema
end JsonPlan
