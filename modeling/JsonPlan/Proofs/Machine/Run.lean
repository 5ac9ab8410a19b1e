import JsonPlan.Machine
import JsonPlan.Proofs.Layout.Actions

/-!
A run over a nested program, without jumps: what stands between the markers of a region is run as a
program of its own, and the run goes on behind the end marker.
-/

namespace JsonPlan

/-- What a region does with a view, given what its body does. -/
def Opening.trace (style : Style) (body : View → Trace) (o : Opening) (v : View) : Trace :=
  match o with
  | .list =>
    match v with
    | .null => .emit ["null"]
    | .seq items => .array (items.map body)
    | other => .fail (other.mismatch "a sequence")
  | .map =>
    match v with
    | .null => .emit ["null"]
    | .map entries => .object style (entries.map fun e => (e.1, body e.2))
    | other => .fail (other.mismatch "a map")
  | .member m =>
    match v with
    | .object type fields =>
      if type = m.owner then
        match fields[m.slot]? with
        | some w => body w
        | none => .done
      else .fail (.shapeMismatch m.owner)
    | other => .fail (other.mismatch "an object")
  | .nullable => if v.isNull then .emit ["null"] else body v

/-! ## Single steps -/

theorem run_literal (style : Style) (text : String) (span : Nat) (rest : List Step) (v : View) :
    run style (⟨.literal text, span⟩ :: rest) v = .emit [text] ++ run style rest v := by
  rw [run]

theorem run_write (style : Style) (leaf : Leaf) (span : Nat) (rest : List Step) (v : View) :
    run style (⟨.write leaf, span⟩ :: rest) v = leaf.trace style v ++ run style rest v := by
  rw [run]

theorem run_leave (style : Style) (region : Region) (span : Nat) (rest : List Step) (v : View) :
    run style (⟨.leave region, span⟩ :: rest) v = run style rest v := by
  rw [run]

/-- A begin marker runs its region. The body must hand over to what follows it, since a value that
is present falls into the body of a nullable region. -/
theorem run_enter {style : Style} {body : List Step}
    (happend : ∀ rest v, run style (body ++ rest) v = run style body v ++ run style rest v)
    (o : Opening) (region : Region) (rest : List Step) (v : View) :
    run style (⟨.enter o, body.length + 1⟩ :: (body ++ ⟨.leave region, 0⟩ :: rest)) v =
      o.trace style (run style body) v ++ run style rest v := by
  have htake : (body ++ ⟨.leave region, 0⟩ :: rest).take (body.length + 1 - 1) = body := by simp
  have hdrop : (body ++ (⟨.leave region, 0⟩ : Step) :: rest).drop (body.length + 1) = rest := by
    rw [← List.drop_drop, List.drop_left, List.drop_one, List.tail_cons]
  cases o with
  | list =>
      rw [run.eq_def]
      simp only [htake, hdrop]
      rfl
  | map =>
      rw [run.eq_def]
      simp only [htake, hdrop]
      rfl
  | member m =>
      rw [run.eq_def]
      simp only [htake, hdrop, Opening.trace]
      congr 1
      cases v with
      | object type fields =>
          simp only
          split
          · split <;> simp_all
          · rfl
      | _ => rfl
  | nullable =>
      rw [run.eq_def]
      simp only [hdrop, happend, run_leave, Opening.trace]
      split <;> rfl

/-! ## Nested programs -/

theorem run_append {as : List Action} (h : Nested as) (style : Style) (rest : List Step)
    (v : View) :
    run style (withSpans as ++ rest) v =
      run style (withSpans as) v ++ run style rest v := by
  induction h generalizing rest v with
  | nil => rw [withSpans_nil, List.nil_append, run_nil, Trace.done_append]
  | @plain a as ho hc hrest ih =>
      rw [withSpans_plain ho hc hrest, List.cons_append]
      cases a with
      | literal text => rw [run_literal, run_literal, ih, Trace.append_assoc]
      | write leaf => rw [run_write, run_write, ih, Trace.append_assoc]
      | enter => simp [Action.opens] at ho
      | leave => simp [Action.closes] at hc
  | @region o body as hbody hrest ihb ihr =>
      rw [withSpans_region hbody hrest, ← length_withSpans body, List.cons_append,
        List.append_assoc, List.cons_append, run_enter ihb, run_enter ihb, ihr,
        Trace.append_assoc]

theorem run_region {body rest : List Action} (hb : Nested body) (hr : Nested rest) (style : Style)
    (o : Opening) (v : View) :
    run style (withSpans (.enter o :: (body ++ .leave o.region :: rest))) v =
      o.trace style (run style (withSpans body)) v ++ run style (withSpans rest) v := by
  rw [withSpans_region hb hr, ← length_withSpans body, run_enter (run_append hb style)]

theorem run_around {body : List Action} (h : Nested body) (style : Style) (o : Opening)
    (v : View) :
    run style (withSpans (o.around body)) v = o.trace style (run style (withSpans body)) v := by
  rw [Opening.around, run_region h .nil, withSpans_nil, run_nil, Trace.append_done]

end JsonPlan
