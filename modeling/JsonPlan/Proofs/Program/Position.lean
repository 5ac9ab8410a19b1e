import JsonPlan.Program.Position
import JsonPlan.Proofs.Program.Cost

/-!
Where a failed estimate points. It counts positions from the start of the innermost list or map that
it has entered, so that its fault points at the marker only if it has entered none.
-/

namespace JsonPlan

/-! ## Ends of regions -/

theorem closingOffset_append {kind : Region} {pending k : Nat} {as : List Action}
    (h : closingOffset kind pending as = some k) (more : List Action) :
    closingOffset kind pending (as ++ more) = some k := by
  induction as generalizing pending k with
  | nil => cases h
  | cons a as ih =>
      have hlater : ∀ p, (closingOffset kind p as).map (· + 1) = some k →
          (closingOffset kind p (as ++ more)).map (· + 1) = some k := by
        intro p hp
        obtain ⟨j, hj, rfl⟩ := Option.map_eq_some_iff.mp hp
        rw [ih hj, Option.map_some]
      rw [List.cons_append, closingOffset.eq_def]
      rw [closingOffset.eq_def] at h
      simp only at h ⊢
      by_cases ho : a.opens = some kind
      · rw [if_pos ho] at h ⊢
        exact hlater _ h
      · rw [if_neg ho] at h ⊢
        by_cases hc : a.closes = some kind
        · rw [if_pos hc] at h ⊢
          cases pending with
          | zero => exact h
          | succ p => exact hlater p h
        · rw [if_neg hc] at h ⊢
          exact hlater _ h

theorem lt_length_of_closingOffset {kind : Region} {pending k : Nat} {as : List Action}
    (h : closingOffset kind pending as = some k) : k < as.length := by
  have hlength := congrArg List.length (eq_append_of_closingOffset h)
  simp only [List.length_append, List.length_take, List.length_cons, List.length_drop] at hlength
  omega

theorem matchingEnd_enter (front : List Action) (o : Opening) (rest : List Action) :
    matchingEnd (front ++ .enter o :: rest) front.length =
      match closingOffset o.region 0 rest with
      | some k => .ok (front.length + 1 + k)
      | none => .error (.unclosed o.region front.length) := by
  have hrest : (front ++ .enter o :: rest).drop (front.length + 1) = rest := by simp
  rw [matchingEnd, List.getElem?_append_right (Nat.le_refl _), Nat.sub_self, hrest]
  rfl

theorem exists_append_of_getElem? {as : List Action} {i : Nat} {a : Action} (h : as[i]? = some a) :
    ∃ front rest, as = front ++ a :: rest ∧ i = front.length := by
  obtain ⟨hi, rfl⟩ := List.getElem?_eq_some_iff.mp h
  exact ⟨as.take i, as.drop (i + 1), by simp, by simp; omega⟩

/-- A region with an end: what is in front of it, what is inside and what comes behind. -/
theorem exists_of_matchingEnd {as : List Action} {i j : Nat} (h : matchingEnd as i = .ok j) :
    ∃ front o inner rest, as = front ++ .enter o :: (inner ++ .leave o.region :: rest) ∧
      closingOffset o.region 0 (inner ++ .leave o.region :: rest) = some inner.length ∧
      i = front.length ∧ j = front.length + 1 + inner.length := by
  cases hget : as[i]? with
  | none => simp [matchingEnd, hget] at h
  | some a =>
      obtain ⟨front, rest, rfl, rfl⟩ := exists_append_of_getElem? hget
      cases a with
      | enter o =>
          rw [matchingEnd_enter] at h
          cases hend : closingOffset o.region 0 rest with
          | none => simp [hend] at h
          | some k =>
              rw [hend] at h
              have hrest := eq_append_of_closingOffset hend
              have hk : (rest.take k).length = k :=
                List.length_take_of_le (Nat.le_of_lt (lt_length_of_closingOffset hend))
              refine ⟨front, o, rest.take k, rest.drop (k + 1), by rw [← hrest], ?_, rfl, ?_⟩
              · rw [← hrest, hend, hk]
              · rw [hk, ← Except.ok.inj h]
      | _ => simp [matchingEnd, Action.opens] at h

theorem markers_of_matchingEnd {as : List Action} {i j : Nat} (h : matchingEnd as i = .ok j) :
    i < j ∧ j < as.length ∧ ∃ o, as[i]? = some (.enter o) ∧ as[j]? = some (.leave o.region) := by
  obtain ⟨front, o, inner, rest, rfl, -, rfl, rfl⟩ := exists_of_matchingEnd h
  refine ⟨by omega, ?_, o, by simp, ?_⟩
  · simp only [List.length_append, List.length_cons]
    omega
  · rw [Nat.add_assoc, List.getElem?_append_right (Nat.le_add_right _ _), Nat.add_sub_cancel_left,
      Nat.add_comm 1, List.getElem?_cons_succ, List.getElem?_append_right (Nat.le_refl _),
      Nat.sub_self, List.getElem?_cons_zero]

/-- A region ends where it does whatever comes before and after. -/
theorem matchingEnd_append {as : List Action} {i j : Nat} (h : matchingEnd as i = .ok j)
    (before after : List Action) :
    matchingEnd (before ++ (as ++ after)) (before.length + i) = .ok (before.length + j) := by
  obtain ⟨front, o, inner, rest, rfl, hend, rfl, rfl⟩ := exists_of_matchingEnd h
  have hlonger := closingOffset_append hend after
  have hword : before ++ (front ++ .enter o :: (inner ++ .leave o.region :: rest) ++ after) =
      (before ++ front) ++ .enter o :: (inner ++ .leave o.region :: rest ++ after) := by
    simp
  rw [hword, ← List.length_append, matchingEnd_enter, hlonger]
  simp only [List.length_append, Except.ok.injEq]
  omega

/-! ## Matched markers -/

theorem Matched.append {as : List Action} {index : Nat} (h : Matched as index)
    (before after : List Action) :
    Matched (before ++ (as ++ after)) (before.length + index) := by
  obtain ⟨i, j, hmatch, hindex⟩ := h
  exact ⟨_, _, matchingEnd_append hmatch before after, by omega⟩

/-- If the begin marker of a region is matched in front of a place then the region ends there. -/
theorem Matched.unique {front rest : List Action} {i j : Nat} (h : Matched front i)
    (hmatch : matchingEnd (front ++ rest) i = .ok j) : j < front.length := by
  obtain ⟨start, stop, hfront, rfl | rfl⟩ := h
  · have hlonger := matchingEnd_append hfront [] rest
    simp only [List.nil_append, List.length_nil, Nat.zero_add] at hlonger
    obtain rfl := Except.ok.inj (hlonger.symm.trans hmatch)
    exact (markers_of_matchingEnd hfront).2.1
  · -- At the position stands an end marker, which begins nothing.
    obtain ⟨-, hlt, o, -, hleave⟩ := markers_of_matchingEnd hfront
    obtain ⟨-, -, o', henter, -⟩ := markers_of_matchingEnd hmatch
    rw [List.getElem?_append_left hlt] at henter
    cases hleave.symm.trans henter

/-- In a list that has a cost the markers of lists and maps are matched. -/
theorem CostTable.Costs.matched {t : CostTable} {as : List Action} {x : Nat} (h : t.Costs as x)
    {index : Nat} {a : Action} (hget : as[index]? = some a) (ha : a.repeats = true) :
    Matched as index := by
  induction h generalizing index with
  | nil => cases hget
  | @plain b rest x hb _ ih =>
      cases index with
      | zero =>
          obtain rfl := Option.some.inj hget
          cases ha.symm.trans hb
      | succ index =>
          have hlater := (ih hget).append [b] []
          rwa [List.append_nil, List.length_singleton, Nat.add_comm] at hlater
  | @region o body rest b x ho hbody _ ihbody ihrest =>
      have hends : matchingEnd (.enter o :: (body ++ .leave o.region :: rest)) 0 =
          .ok (body.length + 1) := by
        have hmatch := matchingEnd_enter [] o (body ++ .leave o.region :: rest)
        rw [(hbody.skips ho).closingOffset_eq rest] at hmatch
        simpa [Nat.add_comm] using hmatch
      cases index with
      | zero => exact ⟨_, _, hends, .inl rfl⟩
      | succ index =>
          rw [List.getElem?_cons_succ] at hget
          rcases Nat.lt_trichotomy index body.length with hlt | rfl | hgt
          · rw [List.getElem?_append_left hlt] at hget
            have hinside := (ihbody hget).append [.enter o] (.leave o.region :: rest)
            rwa [List.length_singleton, Nat.add_comm] at hinside
          · exact ⟨_, _, hends, .inr rfl⟩
          · obtain ⟨d, rfl⟩ := Nat.exists_eq_add_of_lt hgt
            rw [List.getElem?_append_right (by omega),
              show body.length + d + 1 - body.length = d + 1 by omega,
              List.getElem?_cons_succ] at hget
            have hbehind := (ihrest hget).append (.enter o :: (body ++ [.leave o.region])) []
            simp only [List.append_nil, List.cons_append, List.append_assoc, List.length_cons,
              List.length_append, List.length_nil, List.nil_append] at hbehind
            rwa [show body.length + (0 + 1) + 1 + d = body.length + d + 1 + 1 by omega] at hbehind

/-- So they are wherever list and map markers, taken by themselves, nest. -/
theorem matched_of_nested {front : List Action} (h : Nested (front.filter Action.repeats))
    {index : Nat} {a : Action} (hget : front[index]? = some a) (ha : a.repeats = true) :
    Matched front index := by
  obtain ⟨x, hx⟩ := CostTable.default.exists_costs_of_filter h rfl
  exact hx.matched hget ha

/-! ## The first marker at fault -/

/-- An estimate stops at the first marker that is at fault: in front of it lists and maps nest. -/
inductive Stops : List Action → Fault → Prop where
  | stray {front rest : List Action} {region : Region}
      (before : Nested (front.filter Action.repeats)) (repeats : region.repeats) :
      Stops (front ++ .leave region :: rest) (.stray region front.length)
  | unclosed {front rest : List Action} {o : Opening}
      (before : Nested (front.filter Action.repeats)) (repeats : o.region.repeats)
      (endless : closingOffset o.region 0 rest = none) :
      Stops (front ++ .enter o :: rest) (.unclosed o.region front.length)

theorem Stops.pointsInto {body : List Action} {fault : Fault} (h : Stops body fault) :
    fault.PointsInto body := by
  cases h with
  | @stray front rest region before repeats =>
      refine ⟨front.length, .leave region, .stray region _, by simp, ?_⟩
      rintro ⟨i, j, hmatch, hindex⟩
      obtain ⟨hlt, -, o, henter, hleave⟩ := markers_of_matchingEnd hmatch
      rcases hindex with rfl | rfl
      · simp at henter
      · -- The region would begin in front, where every region ends before.
        obtain rfl : o.region = region := by simpa using hleave.symm
        rw [List.getElem?_append_left hlt] at henter
        have hmatched := matched_of_nested before henter (by simpa using repeats)
        exact Nat.lt_irrefl _ (hmatched.unique hmatch)
  | @unclosed front rest o before repeats endless =>
      refine ⟨front.length, .enter o, .unclosed o _, by simp, ?_⟩
      rintro ⟨i, j, hmatch, rfl | rfl⟩
      · rw [matchingEnd_enter, endless] at hmatch
        cases hmatch
      · obtain ⟨-, -, o', -, hleave⟩ := markers_of_matchingEnd hmatch
        simp at hleave

theorem nested_filter_append {front as : List Action}
    (hfront : Nested (front.filter Action.repeats)) (has : Nested (as.filter Action.repeats)) :
    Nested ((front ++ as).filter Action.repeats) := by
  rw [List.filter_append]
  exact hfront.append has

theorem nested_filter_singleton {a : Action} (ha : a.repeats = false) :
    Nested ([a].filter Action.repeats) := by
  rw [List.filter_cons_of_neg (by simp [ha])]
  exact .nil

/-- An estimate that fails has entered lists and maps down to one in which it stops. What it has
passed on the way stays in front. -/
theorem CostTable.exists_enters_of_estimateFrom {t : CostTable} {total index : Nat}
    {as front : List Action} {fault : Fault} (h : t.estimateFrom total index as = .error fault)
    (hfront : Nested (front.filter Action.repeats)) (hindex : index = front.length) :
    ∃ start body, Enters (front ++ as) start body ∧ Stops body fault := by
  fun_induction estimateFrom t total index as generalizing front with
  | case1 => cases h
  | case2 total index text rest ih =>
      have hmore := nested_filter_append hfront (nested_filter_singleton (a := .literal text) rfl)
      simpa using ih h hmore (by simp [hindex])
  | case3 total index leaf rest ih =>
      have hmore := nested_filter_append hfront (nested_filter_singleton (a := .write leaf) rfl)
      simpa using ih h hmore (by simp [hindex])
  | case4 total index o rest ho hend =>
      obtain rfl := Except.error.inj h
      subst hindex
      exact ⟨0, _, .whole, .unclosed hfront ho hend⟩
  | case5 total index o rest ho k hend ihbody ihrest =>
      subst hindex
      have hsplit := eq_append_of_closingOffset hend
      have hk : (rest.take k).length = k :=
        List.length_take_of_le (Nat.le_of_lt (lt_length_of_closingOffset hend))
      cases hbody : t.estimateFrom 0 0 (rest.take k) with
      | error fault' =>
          rw [hbody] at h
          obtain rfl := Except.error.inj h
          have hnothing : Nested (([] : List Action).filter Action.repeats) := .nil
          obtain ⟨start, body, henters, hstops⟩ := ihbody hbody hnothing rfl
          have hends := matchingEnd_enter front o rest
          rw [hend, hsplit] at hends
          rw [hsplit]
          exact ⟨_, body, .inside hfront ho (by rw [hends, hk]) henters, hstops⟩
      | ok size =>
          rw [hbody] at h
          obtain ⟨x, hx⟩ := exists_costs_of_estimateFrom hbody
          have hregion : Nested ((.enter o :: (rest.take k ++ [.leave o.region])).filter
              Action.repeats) :=
            (Costs.region ho hx .nil).nested
          have hword : front ++ .enter o :: rest =
              front ++ .enter o :: (rest.take k ++ [.leave o.region]) ++ rest.drop (k + 1) := by
            rw [List.append_assoc, List.cons_append, List.append_assoc, List.singleton_append,
              ← hsplit]
          rw [hword]
          apply ihrest size h (nested_filter_append hfront hregion)
          simp only [List.length_append, List.length_cons, List.length_nil, hk]
          omega
  | case6 total index o rest ho ih =>
      have hmore := nested_filter_append hfront
        (nested_filter_singleton (a := .enter o) (by simpa using ho))
      simpa using ih h hmore (by simp [hindex])
  | case7 total index r rest hr =>
      obtain rfl := Except.error.inj h
      subst hindex
      exact ⟨0, _, .whole, .stray hfront hr⟩
  | case8 total index r rest hr ih =>
      have hmore := nested_filter_append hfront
        (nested_filter_singleton (a := .leave r) (by simpa using hr))
      simpa using ih h hmore (by simp [hindex])

/-! ## Positions in the whole list -/

namespace Enters

variable {as body : List Action} {start : Nat}

theorem isPrefix (h : Enters as start body) : body <+: as.drop start := by
  induction h with
  | whole => exact List.prefix_refl _
  | @inside front inner rest body o start _ _ _ _ ih =>
      have hdrop : (front ++ .enter o :: (inner ++ .leave o.region :: rest)).drop
          (front.length + 1 + start) = (inner ++ .leave o.region :: rest).drop start := by
        rw [List.drop_append, List.drop_eq_nil_of_le (by omega), List.nil_append,
          show front.length + 1 + start - front.length = start + 1 by omega, List.drop_succ_cons]
      rw [hdrop, List.drop_append]
      exact ih.trans (List.prefix_append _ _)

theorem add_length_le (h : Enters as start body) : start + body.length ≤ as.length := by
  induction h with
  | whole => simp
  | inside _ _ _ _ ih =>
      simp only [List.length_append, List.length_cons]
      omega

theorem eq_of_zero (h : Enters as 0 body) : body = as := by
  generalize hstart : 0 = start at h
  cases h with
  | whole => rfl
  | inside => omega

/-- All list and map markers that an estimate has passed are matched: those of the regions that it
is in and those in front of it. -/
theorem matched {front rest : List Action} (h : Enters as start (front ++ rest))
    (hfront : Nested (front.filter Action.repeats)) {index : Nat} {a : Action}
    (hindex : index < start + front.length) (hget : as[index]? = some a) (ha : a.repeats = true) :
    Matched as index := by
  generalize hbody : front ++ rest = body at h
  induction h generalizing index with
  | whole =>
      subst hbody
      rw [Nat.zero_add] at hindex
      rw [List.getElem?_append_left hindex] at hget
      simpa using (matched_of_nested hfront hget ha).append [] rest
  | @inside before inner behind body o start hbefore ho hends henters ih =>
      rcases Nat.lt_trichotomy index before.length with hlt | rfl | hgt
      · rw [List.getElem?_append_left hlt] at hget
        simpa using (matched_of_nested hbefore hget ha).append []
          (.enter o :: (inner ++ .leave o.region :: behind))
      · exact ⟨_, _, hends, .inl rfl⟩
      · obtain ⟨d, rfl⟩ := Nat.exists_eq_add_of_lt hgt
        rw [List.getElem?_append_right (by omega),
          show before.length + d + 1 - before.length = d + 1 by omega,
          List.getElem?_cons_succ] at hget
        have hlength := henters.add_length_le
        rw [← hbody, List.length_append] at hlength
        rw [List.getElem?_append_left (by omega)] at hget
        have hinside := (ih (by omega) hget hbody).append (before ++ [.enter o])
          (.leave o.region :: behind)
        simp only [List.append_assoc, List.singleton_append, List.length_append,
          List.length_singleton] at hinside
        rwa [show before.length + 1 + d = before.length + d + 1 by omega] at hinside

end Enters

theorem Fault.Names.unique {fault : Fault} {i j : Nat} {a b : Action} (ha : fault.Names i a)
    (hb : fault.Names j b) : i = j ∧ a.repeats = b.repeats := by
  generalize hfault : fault = other at hb
  cases ha with
  | stray =>
      cases hb with
      | stray =>
          obtain ⟨rfl, rfl⟩ := Fault.stray.inj hfault
          exact ⟨rfl, rfl⟩
      | unclosed => cases hfault
  | unclosed =>
      cases hb with
      | stray => cases hfault
      | unclosed =>
          obtain ⟨hregion, rfl⟩ := Fault.unclosed.inj hfault
          exact ⟨rfl, by rw [CostTable.repeats_enter, CostTable.repeats_enter, hregion]⟩

/-- The list in which an estimate stops, cut in front of the marker that its fault tells of. -/
theorem Stops.exists_append {body : List Action} {fault : Fault} (h : Stops body fault) :
    ∃ front a rest, body = front ++ a :: rest ∧ fault.Names front.length a ∧ a.repeats = true ∧
      Nested (front.filter Action.repeats) := by
  cases h with
  | stray before repeats =>
      exact ⟨_, _, _, rfl, .stray _ _, by simpa using repeats, before⟩
  | unclosed before repeats _ =>
      exact ⟨_, _, _, rfl, .unclosed _ _, by simpa using repeats, before⟩

/-- Taken for a position in the whole list, the position in a fault is too small by the start of the
list in which the estimate stopped, and everything in front of the true position is matched. -/
theorem Stops.pointsInto_iff {as body : List Action} {start : Nat} {fault : Fault}
    (h : Stops body fault) (henters : Enters as start body) : fault.PointsInto as ↔ start = 0 := by
  constructor
  · rintro ⟨index, marker, hnames, hget, hunmatched⟩
    obtain ⟨front, a, rest, rfl, ha, hrepeats, hfront⟩ := h.exists_append
    obtain ⟨rfl, hsame⟩ := hnames.unique ha
    by_cases hstart : start = 0
    · exact hstart
    · have hpassed : front.length < start + front.length := by omega
      exact absurd (henters.matched hfront hpassed hget (hsame.trans hrepeats)) hunmatched
  · rintro rfl
    rw [← henters.eq_of_zero]
    exact h.pointsInto

namespace CostTable

/-- An estimate that fails has entered lists and maps of its list, one inside the other, and found
in the innermost one, which begins at `start`, a marker that is at fault. The position in the fault
is that of the marker in there. It is the position in the whole list exactly if nothing was entered.
-/
theorem estimate_pointsInto (t : CostTable) (as : List Action) {e : Error}
    (h : t.estimate as = .error e) :
    ∃ fault start body, e = .malformedProgram fault ∧ Enters as start body ∧
      body <+: as.drop start ∧ fault.PointsInto body ∧ (fault.PointsInto as ↔ start = 0) := by
  rw [estimate] at h
  split at h
  · cases h
  · rename_i fault hfault
    have hnothing : Nested (([] : List Action).filter Action.repeats) := .nil
    obtain ⟨start, body, henters, hstops⟩ := exists_enters_of_estimateFrom hfault hnothing rfl
    exact ⟨fault, start, body, (Except.error.inj h).symm, henters, henters.isPrefix,
      hstops.pointsInto, hstops.pointsInto_iff henters⟩

/-- The list has no end inside of the map, and the fault calls it the first action. -/
theorem estimate_pointsInto_crossed :
    ∃ start body, CostTable.default.estimate
        [.write .int, .enter .map, .enter .list, .leave .map, .leave .list] =
          .error (.malformedProgram (.unclosed .list 0)) ∧
      Enters [.write .int, .enter .map, .enter .list, .leave .map, .leave .list] start body ∧
      (Fault.unclosed .list 0).PointsInto body ∧ start ≠ 0 := by
  have hestimate : CostTable.default.estimate
      [.write .int, .enter .map, .enter .list, .leave .map, .leave .list] =
        .error (.malformedProgram (.unclosed .list 0)) := by
    cbv
  obtain ⟨fault, start, body, hfault, henters, -, hbody, hiff⟩ :=
    estimate_pointsInto .default _ hestimate
  obtain rfl := Error.malformedProgram.inj hfault
  refine ⟨start, body, hestimate, henters, hbody, fun hstart => ?_⟩
  obtain ⟨index, marker, hnames, hget, -⟩ := hiff.mpr hstart
  obtain ⟨rfl, hrepeats⟩ := hnames.unique (.unclosed .list 0)
  obtain rfl := Option.some.inj hget
  cases hrepeats

/-- The end of the map stands behind the start of the list, at position 1. -/
theorem estimate_misses_marker :
    ¬ ∀ e, CostTable.default.estimate [.enter .list, .leave .map, .leave .list] = .error e →
      ∃ fault, e = .malformedProgram fault ∧
        fault.PointsInto [.enter .list, .leave .map, .leave .list] := by
  intro hclaim
  have hestimate : CostTable.default.estimate [.enter .list, .leave .map, .leave .list] =
      .error (.malformedProgram (.stray .map 0)) := by
    cbv
  obtain ⟨fault, hfault, index, marker, hnames, hget, -⟩ := hclaim _ hestimate
  obtain rfl := Error.malformedProgram.inj hfault
  cases hnames
  cases hget

end CostTable
end JsonPlan
