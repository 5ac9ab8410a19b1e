import JsonPlan.Program.Builder
import JsonPlan.Program.Nesting

/-! Nested action lists freeze, and their spans are those of their parts. -/

namespace JsonPlan

namespace Nested

theorem append {as bs : List Action} (ha : Nested as) (hb : Nested bs) : Nested (as ++ bs) := by
  induction ha with
  | nil => exact hb
  | plain ho hc _ ih => exact .plain ho hc ih
  | region hbody _ _ ih =>
      rw [List.cons_append, List.append_assoc, List.cons_append]
      exact .region hbody ih

theorem literal (text : String) {rest : List Action} (h : Nested rest) :
    Nested (.literal text :: rest) :=
  .plain rfl rfl h

theorem write (leaf : Leaf) : Nested [.write leaf] := .plain rfl rfl .nil

end Nested

/-- If a region is what is kept of a list, the list has this region around what the body is kept of. -/
theorem exists_of_filter_eq_region {keep : Action → Bool} {o : Opening} {body rest as : List Action}
    (h : as.filter keep = .enter o :: (body ++ .leave o.region :: rest)) :
    ∃ front inner after, as = front ++ .enter o :: (inner ++ .leave o.region :: after) ∧
      front.filter keep = [] ∧ keep (.enter o) = true ∧ inner.filter keep = body ∧
      after.filter keep = rest := by
  obtain ⟨front, tail, rfl, hfront, ho, htail⟩ := List.filter_eq_cons_iff.mp h
  obtain ⟨inner, tail, rfl, hinner, htail⟩ := List.filter_eq_append_iff.mp htail
  obtain ⟨gap, after, rfl, hgap, -, hafter⟩ := List.filter_eq_cons_iff.mp htail
  refine ⟨front, inner ++ gap, after, by rw [List.append_assoc], List.filter_eq_nil_iff.mpr hfront,
    ho, ?_, hafter⟩
  rw [List.filter_append, hinner, List.filter_eq_nil_iff.mpr hgap, List.append_nil]

theorem length_region (o : Opening) (body rest : List Action) :
    (Action.enter o :: (body ++ .leave o.region :: rest)).length =
      body.length + 1 + rest.length + 1 := by
  simp only [List.length_cons, List.length_append]
  omega

/-! ## Spans -/

theorem length_spansFrom (index : Nat) (as : List Action) :
    (spansFrom index as).1.length = as.length := by
  induction as generalizing index with
  | nil => rfl
  | cons a as ih =>
      have hlen := ih (index + 1)
      rw [spansFrom]
      simp only
      split
      · split <;> simp [hlen]
      · simp [hlen]
      · simp [hlen]

theorem length_spans (as : List Action) : (spans as).length = as.length := length_spansFrom 0 as

/-- A nested word has spans of its own, wherever it stands, and claims no end marker after it. -/
theorem exists_spansFrom_append {as : List Action} (h : Nested as) :
    ∃ own : List Nat, ∀ index rest,
      spansFrom index (as ++ rest) =
        (own ++ (spansFrom (index + as.length) rest).1,
          (spansFrom (index + as.length) rest).2) := by
  induction h with
  | nil => exact ⟨[], fun _ _ => rfl⟩
  | @plain a as ho hc _ ih =>
      obtain ⟨own, hspans⟩ := ih
      refine ⟨0 :: own, ?_⟩
      intro index rest
      have hindex : index + (a :: as).length = index + 1 + as.length := by
        simp only [List.length_cons]
        omega
      rw [List.cons_append, spansFrom, hspans, ho, hc, hindex]
      rfl
  | @region o body as _ _ ihb ihr =>
      obtain ⟨inside, hbody⟩ := ihb
      obtain ⟨after, hrest⟩ := ihr
      refine ⟨(body.length + 1) :: (inside ++ 0 :: after), ?_⟩
      intro index rest
      have hindex : index + (Action.enter o :: (body ++ .leave o.region :: as)).length =
          index + 1 + body.length + 1 + as.length := by
        rw [length_region]
        omega
      have hspan : index + 1 + body.length - index = body.length + 1 := by omega
      rw [List.cons_append, List.append_assoc, List.cons_append, spansFrom, hbody, hindex]
      rw [spansFrom, hrest]
      simp only [Action.opens, Action.closes, hspan, List.cons_append, List.append_assoc]

theorem spansFrom_append {as : List Action} (h : Nested as) (index : Nat) (rest : List Action) :
    spansFrom index (as ++ rest) =
      (spans as ++ (spansFrom (index + as.length) rest).1,
        (spansFrom (index + as.length) rest).2) := by
  obtain ⟨own, hspans⟩ := exists_spansFrom_append h
  have hown : spans as = own := by
    have hself := hspans 0 []
    rw [List.append_nil] at hself
    rw [spans, hself]
    simp [spansFrom]
  rw [hown, hspans]

theorem spansFrom_of_nested {as : List Action} (h : Nested as) (index : Nat) :
    spansFrom index as = (spans as, []) := by
  have hspans := spansFrom_append h index []
  rw [List.append_nil] at hspans
  rw [hspans]
  simp [spansFrom]

theorem spans_plain {a : Action} {rest : List Action} (ho : a.opens = none) (hc : a.closes = none)
    (h : Nested rest) : spans (a :: rest) = 0 :: spans rest := by
  rw [spans, spansFrom, spansFrom_of_nested h, ho, hc]

theorem spans_region {o : Opening} {body rest : List Action} (hb : Nested body) (hr : Nested rest) :
    spans (.enter o :: (body ++ .leave o.region :: rest)) =
      (body.length + 1) :: (spans body ++ 0 :: spans rest) := by
  have hspan : 0 + 1 + body.length - 0 = body.length + 1 := by omega
  rw [spans, spansFrom, spansFrom_append hb, spansFrom, spansFrom_of_nested hr]
  simp only [Action.opens, Action.closes, hspan]

/-! ## Steps -/

@[simp] theorem withSpans_nil : withSpans [] = [] := rfl

@[simp] theorem length_withSpans (as : List Action) : (withSpans as).length = as.length := by
  simp [withSpans, length_spans]

@[simp] theorem actions_withSpans (as : List Action) : (Program.mk (withSpans as)).actions = as := by
  have hzip : List.zipWith Step.mk as (spans as) =
      (as.zip (spans as)).map fun p => ⟨p.1, p.2⟩ := by
    rw [List.zip, List.map_zipWith]
  rw [Program.actions, withSpans, hzip, List.map_map]
  exact List.map_fst_zip (Nat.le_of_eq (length_spans as).symm)

theorem withSpans_plain {a : Action} {rest : List Action} (ho : a.opens = none)
    (hc : a.closes = none) (h : Nested rest) :
    withSpans (a :: rest) = ⟨a, 0⟩ :: withSpans rest := by
  rw [withSpans, spans_plain ho hc h]
  rfl

theorem withSpans_region {o : Opening} {body rest : List Action} (hb : Nested body)
    (hr : Nested rest) :
    withSpans (.enter o :: (body ++ .leave o.region :: rest)) =
      ⟨.enter o, body.length + 1⟩ :: (withSpans body ++ ⟨.leave o.region, 0⟩ :: withSpans rest) := by
  rw [withSpans, spans_region hb hr, List.zipWith_cons_cons,
    List.zipWith_append (length_spans body).symm]
  rfl

/-! ## The scan -/

/-- The positions where the regions of a list end that stands at `index`. -/
def endsAt (index : Nat) (as : List Action) : List Nat :=
  (spans as).mapIdx fun i span => index + i + span

@[simp] theorem length_endsAt (index : Nat) (as : List Action) :
    (endsAt index as).length = as.length := by
  rw [endsAt, List.length_mapIdx, length_spans]

theorem endsAt_plain {a : Action} {rest : List Action} (ho : a.opens = none) (hc : a.closes = none)
    (h : Nested rest) (index : Nat) :
    endsAt index (a :: rest) = index :: endsAt (index + 1) rest := by
  have hshift : (fun i span => index + (i + 1) + span) = fun i span => index + 1 + i + span := by
    funext i span
    omega
  rw [endsAt, spans_plain ho hc h, List.mapIdx_cons, hshift]
  rfl

theorem endsAt_region {o : Opening} {body rest : List Action} (hb : Nested body) (hr : Nested rest)
    (index : Nat) :
    endsAt index (.enter o :: (body ++ .leave o.region :: rest)) =
      (index + 1 + body.length) :: (endsAt (index + 1) body ++
        (index + 1 + body.length) :: endsAt (index + 1 + body.length + 1) rest) := by
  have hspan : index + 0 + (body.length + 1) = index + 1 + body.length := by omega
  have hbody : (fun i span => index + (i + 1) + span) = fun i span => index + 1 + i + span := by
    funext i span
    omega
  have hleave : index + 1 + (0 + (spans body).length) + 0 = index + 1 + body.length := by
    rw [length_spans]
    omega
  have hrest : (fun i span => index + 1 + (i + 1 + (spans body).length) + span) =
      fun i span => index + 1 + body.length + 1 + i + span := by
    funext i span
    rw [length_spans]
    omega
  rw [endsAt, spans_region hb hr, List.mapIdx_cons, hspan, hbody, List.mapIdx_append,
    List.mapIdx_cons, hleave, hrest]
  rfl

theorem range'_region (o : Opening) (body rest : List Action) (index : Nat) :
    List.range' index (Action.enter o :: (body ++ .leave o.region :: rest)).length =
      index :: (List.range' (index + 1) body.length ++ (index + 1 + body.length) ::
        List.range' (index + 1 + body.length + 1) rest.length) := by
  rw [length_region, List.range'_succ, Nat.add_assoc, Nat.add_comm 1, ← List.range'_append_1,
    List.range'_succ]

theorem toList_setIfInBounds_front {ends : Array Nat} {front back : List Nat} {x : Nat} (y : Nat)
    (h : ends.toList = front ++ x :: back) :
    (ends.setIfInBounds front.length y).toList = front ++ y :: back := by
  rw [Array.toList_setIfInBounds, h, List.set_append_right _ _ (Nat.le_refl _), Nat.sub_self]
  rfl

section Scan

variable (opened : List (Region × Nat)) (ends : Array Nat) (index : Nat) (rest : List Action)

theorem checkFrom_plain {a : Action} (ho : a.opens = none) (hc : a.closes = none) :
    checkFrom opened ends index (a :: rest) = checkFrom opened ends (index + 1) rest := by
  rw [checkFrom, ho, hc]

theorem checkFrom_enter (o : Opening) :
    checkFrom opened ends index (.enter o :: rest) =
      checkFrom ((o.region, index) :: opened) ends (index + 1) rest := rfl

theorem checkFrom_leave (region : Region) (start : Nat) :
    checkFrom ((region, start) :: opened) ends index (.leave region :: rest) =
      checkFrom opened (ends.setIfInBounds start index) (index + 1) rest :=
  if_pos rfl

end Scan

/-- A nested word leaves the open regions as they were. Of the ends, those at its own positions are
recorded, and those in front of it and behind it stay. -/
theorem checkFrom_append {as : List Action} (h : Nested as) (opened : List (Region × Nat))
    {ends : Array Nat} {index : Nat} {front back : List Nat} (rest : List Action)
    (hindex : front.length = index)
    (hends : ends.toList = front ++ (List.range' index as.length ++ back)) :
    ∃ ends', ends'.toList = front ++ (endsAt index as ++ back) ∧
      checkFrom opened ends index (as ++ rest) = checkFrom opened ends' (index + as.length) rest := by
  induction h generalizing opened ends index front back rest with
  | nil => exact ⟨ends, hends, rfl⟩
  | @plain a as ho hc has ih =>
      have hnext : ends.toList = (front ++ [index]) ++ (List.range' (index + 1) as.length ++ back) := by
        rw [hends, List.length_cons, List.range'_succ]
        simp
      obtain ⟨ends', hends', hcheck⟩ := ih opened rest (by simp [hindex]) hnext
      refine ⟨ends', ?_, ?_⟩
      · rw [hends', endsAt_plain ho hc has]
        simp
      · rw [List.cons_append, checkFrom_plain _ _ _ _ ho hc, hcheck, List.length_cons,
          Nat.add_assoc, Nat.add_comm 1]
  | @region o body as hbody has ihbody ihrest =>
      -- The own position of the begin marker stays in front of the body until the region is closed.
      have hinside : ends.toList = (front ++ [index]) ++ (List.range' (index + 1) body.length ++
          ((index + 1 + body.length) :: (List.range' (index + 1 + body.length + 1) as.length ++
            back))) := by
        rw [hends, range'_region]
        simp
      obtain ⟨inner, hinner, hcheck⟩ := ihbody ((o.region, index) :: opened)
        (.leave o.region :: (as ++ rest)) (by simp [hindex]) hinside
      have hbehind : (inner.setIfInBounds index (index + 1 + body.length)).toList =
          (front ++ (index + 1 + body.length) :: (endsAt (index + 1) body ++
            [index + 1 + body.length])) ++
          (List.range' (index + 1 + body.length + 1) as.length ++ back) := by
        rw [List.append_assoc, List.singleton_append] at hinner
        rw [← hindex] at hinner ⊢
        rw [toList_setIfInBounds_front _ hinner]
        simp
      have hplace : (front ++ (index + 1 + body.length) :: (endsAt (index + 1) body ++
          [index + 1 + body.length])).length = index + 1 + body.length + 1 := by
        simp only [List.length_append, List.length_cons, List.length_nil, length_endsAt, hindex]
        omega
      obtain ⟨ends', hends', hafter⟩ := ihrest opened rest hplace hbehind
      refine ⟨ends', ?_, ?_⟩
      · rw [hends', endsAt_region hbody has]
        simp
      · have hlength : index + 1 + body.length + 1 + as.length =
            index + (Action.enter o :: (body ++ .leave o.region :: as)).length := by
          rw [length_region]
          omega
        rw [List.cons_append, List.append_assoc, List.cons_append, checkFrom_enter, hcheck,
          checkFrom_leave, hafter, hlength]

/-- The check of a nested word records where the regions end. -/
theorem checkNesting_of_nested {as : List Action} (h : Nested as) :
    ∃ ends, checkNesting as = .ok ends ∧ ends.toList = endsAt 0 as := by
  have hrange : (Array.range as.length).toList = [] ++ (List.range' 0 as.length ++ []) := by
    rw [Array.toList_range, List.range_eq_range']
    simp
  obtain ⟨ends, hends, hcheck⟩ := @checkFrom_append _ h [] _ 0 [] [] [] rfl hrange
  rw [List.append_nil] at hcheck
  refine ⟨ends, ?_, by simpa using hends⟩
  rw [checkNesting, hcheck]
  rfl

/-- What is recorded are the reaches of the regions. -/
theorem ofEnds_endsAt {ends : Array Nat} {as : List Action} (h : ends.toList = endsAt 0 as) :
    Step.ofEnds ends as = withSpans as := by
  apply List.ext_getElem
  · simp [Step.ofEnds]
  · intro i hi _
    have hi' : i < as.length := by simpa [Step.ofEnds] using hi
    have hspans : i < (spans as).length := by rwa [length_spans]
    have hget : ends.getD i i = i + (spans as)[i] := by
      rw [Array.getD_eq_getD_getElem?, ← Array.getElem?_toList, h, endsAt, List.getElem?_mapIdx,
        List.getElem?_eq_getElem hspans]
      simp
    simp only [Step.ofEnds, withSpans, List.getElem_mapIdx, List.getElem_zipWith, hget,
      Nat.add_sub_cancel_left]

theorem ofActions_of_nested {as : List Action} (h : Nested as) :
    Program.ofActions as = .ok ⟨withSpans as⟩ := by
  obtain ⟨ends, hcheck, hends⟩ := checkNesting_of_nested h
  rw [Program.ofActions, hcheck, ← ofEnds_endsAt hends]

end JsonPlan
