import JsonPlan.Proofs.Outcome
import JsonPlan.Proofs.Program.Regions

/-!
Saturating once is enough: an estimate is the exact cost of an action list, cut off at the largest
size. A list has a cost if its list and map markers nest, and no estimate otherwise.
-/

namespace JsonPlan

namespace CostTable

variable {t : CostTable}

/-! ## Saturation -/

theorem satAdd_le (a b : Nat) : satAdd a b ≤ maxSize := Nat.min_le_left _ _

theorem satAdd_satAdd (a b c : Nat) : satAdd (satAdd a b) c = satAdd a (b + c) := by
  simp only [satAdd]
  omega

theorem satAdd_min (a b : Nat) : satAdd a (min maxSize b) = satAdd a b := by
  simp only [satAdd]
  omega

/-- A factor that has saturated saturates the product, unless nothing is assumed to repeat. -/
theorem satMul_min (a b : Nat) : satMul (min maxSize a) b = min maxSize (a * b) := by
  rw [satMul]
  rcases Nat.le_total a maxSize with ha | ha
  · rw [Nat.min_eq_right ha]
  · rw [Nat.min_eq_left ha]
    cases b with
    | zero => rfl
    | succ b =>
        have hmax : maxSize ≤ maxSize * (b + 1) := Nat.le_mul_of_pos_right _ (Nat.succ_pos b)
        have hprod : maxSize * (b + 1) ≤ a * (b + 1) := Nat.mul_le_mul_right _ ha
        omega

theorem regionCost_min (t : CostTable) (body : Nat) :
    t.regionCost (min maxSize body) = min maxSize (t.fanOut * body + t.overhead) := by
  rw [regionCost, satMul_min, Nat.mul_comm, satAdd]
  omega

/-! ## Costs -/

@[simp] theorem repeats_enter (o : Opening) : (Action.enter o).repeats = o.region.repeats := by
  simp [Action.repeats, Action.opens, Action.closes]

@[simp] theorem repeats_leave (kind : Region) : (Action.leave kind).repeats = kind.repeats := by
  simp [Action.repeats, Action.opens, Action.closes]

@[simp] theorem actionCost_enter (t : CostTable) (o : Opening) : t.actionCost (.enter o) = 0 := rfl

@[simp] theorem actionCost_leave (t : CostTable) (kind : Region) : t.actionCost (.leave kind) = 0 :=
  rfl

namespace Costs

theorem skips {as : List Action} {x : Nat} (h : t.Costs as x) {kind : Region}
    (hkind : kind.repeats = true) : Skips kind as := by
  induction h with
  | nil => exact .nil
  | @plain a rest x ha _ ih =>
      refine ih.plain ?_ ?_
      · intro ho
        simp [Action.repeats, ho, hkind] at ha
      · intro hc
        simp [Action.repeats, hc, hkind] at ha
  | region _ _ _ ihbody ihrest => exact ihbody.region ihrest

theorem append {as bs : List Action} {x y : Nat} (ha : t.Costs as x) (hb : t.Costs bs y) :
    t.Costs (as ++ bs) (x + y) := by
  induction ha with
  | nil => rwa [List.nil_append, Nat.zero_add]
  | plain h _ ih =>
      rw [List.cons_append, Nat.add_assoc]
      exact .plain h ih
  | region h hbody _ _ ih =>
      rw [List.cons_append, List.append_assoc, List.cons_append, Nat.add_assoc]
      exact .region h hbody ih

theorem literal (text : String) {rest : List Action} {x : Nat} (h : t.Costs rest x) :
    t.Costs (.literal text :: rest) (text.utf8ByteSize + x) :=
  .plain rfl h

theorem write (leaf : Leaf) : t.Costs [.write leaf] (t.leafCost leaf) := .plain rfl .nil

/-- The markers of members and of optional values cost nothing. -/
theorem once {o : Opening} (h : o.region.repeats = false) {body rest : List Action} {b x : Nat}
    (hbody : t.Costs body b) (hrest : t.Costs rest x) :
    t.Costs (.enter o :: (body ++ .leave o.region :: rest)) (b + x) := by
  have hleave : t.Costs (.leave o.region :: rest) (0 + x) :=
    .plain (by simp [h]) hrest
  have henter : t.Costs (.enter o :: (body ++ .leave o.region :: rest)) (0 + (b + (0 + x))) :=
    .plain (by simp [h]) (hbody.append hleave)
  simpa only [Nat.zero_add] using henter

theorem unique {as : List Action} {x y : Nat} (hx : t.Costs as x) (hy : t.Costs as y) :
    x = y := by
  induction hx generalizing y with
  | nil => cases hy; rfl
  | plain ha _ ih =>
      cases hy with
      | plain _ hrest => rw [ih hrest]
      | region ho _ _ => simp [ho] at ha
  | @region o body rest b x ho hbody hrest ihbody ihrest =>
      generalize hword : Action.enter o :: (body ++ .leave o.region :: rest) = word at hy
      cases hy with
      | nil => cases hword
      | plain ha _ =>
          obtain ⟨rfl, -⟩ := List.cons.inj hword
          simp [ho] at ha
      | @region o' body' rest' b' x' _ hbody' hrest' =>
          obtain ⟨hopening, hsame⟩ := List.cons.inj hword
          obtain rfl := Action.enter.inj hopening
          -- Both bodies end where the count of the region's kind does.
          have hoffset := (hbody.skips ho).closingOffset_eq rest
          rw [hsame, (hbody'.skips ho).closingOffset_eq rest'] at hoffset
          obtain ⟨rfl, htail⟩ := List.append_inj hsame (Option.some.inj hoffset).symm
          obtain ⟨-, rfl⟩ := List.cons.inj htail
          rw [ihbody hbody', ihrest hrest']

theorem nested {as : List Action} {x : Nat} (h : t.Costs as x) :
    Nested (as.filter Action.repeats) := by
  induction h with
  | nil => exact .nil
  | plain ha _ ih => rwa [List.filter_cons_of_neg (by simp [ha])]
  | @region o _ _ _ _ ho _ _ ihbody ihrest =>
      rw [List.filter_cons_of_pos (by simp [ho]), List.filter_append,
        List.filter_cons_of_pos (by simp [ho])]
      exact .region ihbody ihrest

end Costs

theorem exists_costs (t : CostTable) {as : List Action} (h : Nested as) : ∃ x, t.Costs as x := by
  induction h with
  | nil => exact ⟨0, .nil⟩
  | plain ho hc _ ih =>
      obtain ⟨x, hx⟩ := ih
      exact ⟨_, .plain (by simp [Action.repeats, ho, hc]) hx⟩
  | @region o _ _ _ _ ihbody ihrest =>
      obtain ⟨b, hb⟩ := ihbody
      obtain ⟨x, hx⟩ := ihrest
      cases ho : o.region.repeats with
      | true => exact ⟨_, .region ho hb hx⟩
      | false => exact ⟨_, .once ho hb hx⟩

/-- Among actions that repeat nothing there may be any markers of members and of optional values. -/
theorem exists_costs_append {as bs : List Action} (h : as.filter Action.repeats = []) {x : Nat}
    (hbs : t.Costs bs x) : ∃ y, t.Costs (as ++ bs) y := by
  induction as with
  | nil => exact ⟨x, hbs⟩
  | cons a as ih =>
      have hplain := List.filter_eq_nil_iff.mp h
      obtain ⟨y, hy⟩ := ih (List.filter_eq_nil_iff.mpr fun b hb => hplain b (by simp [hb]))
      exact ⟨_, .plain (by simpa using hplain a (by simp)) hy⟩

theorem exists_costs_of_filter (t : CostTable) {word : List Action} (h : Nested word)
    {as : List Action} (has : as.filter Action.repeats = word) : ∃ x, t.Costs as x := by
  induction h generalizing as with
  | nil =>
      have hcosts := exists_costs_append (t := t) has .nil
      rwa [List.append_nil] at hcosts
  | @plain a _ ho hc _ _ =>
      have ha : a ∈ as.filter Action.repeats := by rw [has]; exact List.mem_cons_self
      have hrepeats := (List.mem_filter.mp ha).2
      simp [Action.repeats, ho, hc] at hrepeats
  | @region o body rest _ _ ihbody ihrest =>
      obtain ⟨front, inner, after, rfl, hfront, ho, hbody, hrest⟩ := exists_of_filter_eq_region has
      obtain ⟨b, hb⟩ := ihbody hbody
      obtain ⟨x, hx⟩ := ihrest hrest
      exact exists_costs_append hfront (.region (by simpa using ho) hb hx)

/-! ## Estimates -/

theorem estimateFrom_of_costs {as : List Action} {x : Nat} (h : t.Costs as x) {total : Nat}
    (htotal : total ≤ maxSize) (index : Nat) :
    t.estimateFrom total index as = .ok (satAdd total x) := by
  induction h generalizing total index with
  | nil => rw [estimateFrom, satAdd, Nat.add_zero, Nat.min_eq_right htotal]
  | @plain a rest x ha _ ih =>
      cases a with
      | literal text => rw [estimateFrom, ih (satAdd_le _ _), satAdd_satAdd, actionCost]
      | write leaf => rw [estimateFrom, ih (satAdd_le _ _), satAdd_satAdd, actionCost]
      | enter o =>
          have ho : o.region.repeats = false := by simpa using ha
          rw [estimateFrom, ho, if_neg Bool.false_ne_true, ih htotal, actionCost_enter, Nat.zero_add]
      | leave kind =>
          have hkind : kind.repeats = false := by simpa using ha
          rw [estimateFrom, hkind, if_neg Bool.false_ne_true, ih htotal, actionCost_leave, Nat.zero_add]
  | @region o body rest b x ho hbody _ ihbody ihrest =>
      have hoffset := (hbody.skips ho).closingOffset_eq rest
      have hinner := ihbody (Nat.zero_le maxSize) 0
      have hrest : (body ++ .leave o.region :: rest).drop (body.length + 1) = rest := by simp
      have hclamp : satAdd 0 b = min maxSize b := by rw [satAdd, Nat.zero_add]
      rw [estimateFrom, if_pos ho, hoffset]
      simp only [List.take_left, hinner, hrest, hclamp, regionCost_min, satAdd_min, bind, Except.bind]
      rw [ihrest (satAdd_le _ _), satAdd_satAdd]

/-- An estimate is the cost of the list, cut off at the largest size. -/
theorem estimate_of_costs {as : List Action} {x : Nat} (h : t.Costs as x) :
    t.estimate as = .ok (min maxSize x) := by
  rw [estimate, estimateFrom_of_costs h (Nat.zero_le maxSize), satAdd, Nat.zero_add]

/-- A list that freezes has an estimate. -/
theorem exists_estimate (t : CostTable) {as : List Action} (h : Nested as) :
    ∃ size, t.estimate as = .ok size := by
  obtain ⟨x, hx⟩ := t.exists_costs h
  exact ⟨_, estimate_of_costs hx⟩

/-! ## Failures -/

theorem exists_costs_of_estimateFrom {total index size : Nat} {as : List Action}
    (h : t.estimateFrom total index as = .ok size) : ∃ x, t.Costs as x := by
  fun_induction estimateFrom t total index as generalizing size with
  | case1 => exact ⟨0, .nil⟩
  | case2 total index text rest ih =>
      obtain ⟨x, hx⟩ := ih h
      exact ⟨_, hx.literal text⟩
  | case3 total index leaf rest ih =>
      obtain ⟨x, hx⟩ := ih h
      exact ⟨_, .plain rfl hx⟩
  | case4 => cases h
  | case5 total index o rest ho k hk ihbody ihrest =>
      obtain ⟨body, hbody, hrest⟩ := bind_eq_ok.mp h
      obtain ⟨b, hb⟩ := ihbody hbody
      obtain ⟨x, hx⟩ := ihrest body hrest
      rw [eq_append_of_closingOffset hk]
      exact ⟨_, .region ho hb hx⟩
  | case6 total index o rest ho ih =>
      obtain ⟨x, hx⟩ := ih h
      exact ⟨_, .plain (by simpa using ho) hx⟩
  | case7 => cases h
  | case8 total index r rest hr ih =>
      obtain ⟨x, hx⟩ := ih h
      exact ⟨_, .plain (by simpa using hr) hx⟩

theorem exists_costs_of_estimate {as : List Action} {size : Nat}
    (h : t.estimate as = .ok size) : ∃ x, t.Costs as x := by
  rw [estimate] at h
  split at h
  · exact exists_costs_of_estimateFrom (by assumption)
  · cases h

/-- The estimate of an action list succeeds exactly if its list and map markers, taken by
themselves, nest. Then the list has one cost, and the estimate is this cost, cut off at the largest
size. Otherwise the markers are at fault. -/
theorem estimate_exact (t : CostTable) (as : List Action) :
    ((∃ size, t.estimate as = .ok size) ↔ Nested (as.filter Action.repeats)) ∧
    (∀ size, t.estimate as = .ok size ↔
      ∃ x, t.Costs as x ∧ (∀ y, t.Costs as y → y = x) ∧ size = min maxSize x) ∧
    (¬ Nested (as.filter Action.repeats) →
      ∃ fault, t.estimate as = .error (.malformedProgram fault)) := by
  have hexact : ∀ size, t.estimate as = .ok size ↔
      ∃ x, t.Costs as x ∧ (∀ y, t.Costs as y → y = x) ∧ size = min maxSize x := by
    intro size
    constructor
    · intro h
      obtain ⟨x, hx⟩ := exists_costs_of_estimate h
      rw [estimate_of_costs hx] at h
      exact ⟨x, hx, fun y hy => hy.unique hx, (Except.ok.inj h).symm⟩
    · rintro ⟨x, hx, -, rfl⟩
      exact estimate_of_costs hx
  have hnested : (∃ size, t.estimate as = .ok size) ↔ Nested (as.filter Action.repeats) := by
    constructor
    · rintro ⟨size, h⟩
      obtain ⟨x, hx⟩ := exists_costs_of_estimate h
      exact hx.nested
    · intro h
      obtain ⟨x, hx⟩ := exists_costs_of_filter t h rfl
      exact ⟨_, estimate_of_costs hx⟩
  refine ⟨hnested, hexact, fun hcrossed => ?_⟩
  cases hestimate : t.estimate as with
  | ok size => exact absurd (hnested.mp ⟨size, hestimate⟩) hcrossed
  | error e =>
      rw [estimate] at hestimate
      split at hestimate
      · cases hestimate
      · exact ⟨_, hestimate.symm⟩

/-- A list that crosses an optional value. -/
theorem estimate_exact_crossed :
    CostTable.default.estimate
      [.enter .nullable, .enter .list, .write .int, .leave .nullable, .leave .list] = .ok 41 := by
  obtain ⟨hnested, hexact, -⟩ := estimate_exact .default
    [.enter .nullable, .enter .list, .write .int, .leave .nullable, .leave .list]
  have hmarkers : Nested ([.enter .list, .leave .list] : List Action) :=
    .region (o := .list) .nil .nil
  obtain ⟨size, hsize⟩ := hnested.mpr hmarkers
  obtain ⟨x, -, hx, rfl⟩ := (hexact size).mp hsize
  have hbody : CostTable.default.Costs [.write .int, .leave .nullable] 3 :=
    .plain rfl (.plain rfl .nil)
  have hcosts : CostTable.default.Costs
      [.enter .nullable, .enter .list, .write .int, .leave .nullable, .leave .list] 41 :=
    .plain rfl (.region (o := .list) rfl hbody .nil)
  rw [hsize, ← hx _ hcosts]
  rfl

end CostTable
end JsonPlan
