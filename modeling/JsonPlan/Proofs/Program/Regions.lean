import JsonPlan.Proofs.Program.Nesting

/-!
Exactly the nested action lists freeze. A frozen program knows where each region ends: at the marker
that closes it in the nesting, and a count of the markers of its kind alone comes to the same place.
-/

namespace JsonPlan

/-! ## Scans that succeed -/

/-- A word that closes the given regions one after another, with nested words in between. -/
inductive Closes : List Region → List Action → Prop where
  | nested {as : List Action} : Nested as → Closes [] as
  | close {region : Region} {outer : List Region} {body rest : List Action} :
      Nested body → Closes outer rest → Closes (region :: outer) (body ++ .leave region :: rest)

namespace Closes

variable {opened : List Region} {as : List Action}

theorem plain {a : Action} (ho : a.opens = none) (hc : a.closes = none) (h : Closes opened as) :
    Closes opened (a :: as) := by
  cases h with
  | nested h => exact .nested (.plain ho hc h)
  | close hbody hrest => exact .close (.plain ho hc hbody) hrest

/-- What closes one region more closes that of an opening in front. -/
theorem enter (o : Opening) (h : Closes (o.region :: opened) as) : Closes opened (.enter o :: as) := by
  cases h with
  | close hbody hrest =>
      cases hrest with
      | nested hrest => exact .nested (.region hbody hrest)
      | close hinner hrest => simpa using Closes.close (.region hbody hinner) hrest

end Closes

theorem closes_of_checkFrom {opened : List (Region × Nat)} {ends ends' : Array Nat} {index : Nat}
    {as : List Action} (h : checkFrom opened ends index as = .ok ends') :
    Closes (opened.map Prod.fst) as := by
  induction as generalizing opened ends index with
  | nil =>
      cases opened with
      | nil => exact .nested .nil
      | cons top outer => cases h
  | cons a as ih =>
      cases a with
      | literal text => exact (ih h).plain rfl rfl
      | write leaf => exact (ih h).plain rfl rfl
      | enter o => exact (ih h).enter o
      | leave region =>
          cases opened with
          | nil => cases h
          | cons top outer =>
              obtain ⟨kind, start⟩ := top
              simp only [checkFrom, Action.opens, Action.closes] at h
              split at h
              · rename_i hkind
                subst hkind
                exact .close .nil (ih h)
              · cases h

theorem nested_of_checkNesting {as : List Action} {ends : Array Nat}
    (h : checkNesting as = .ok ends) : Nested as := by
  cases closes_of_checkFrom h with
  | nested h => exact h

theorem ofActions_eq_ok_iff {as : List Action} {p : Program} :
    Program.ofActions as = .ok p ↔ Nested as ∧ p = ⟨withSpans as⟩ := by
  constructor
  · intro h
    have hnested : Nested as := by
      cases hcheck : checkNesting as with
      | ok ends => exact nested_of_checkNesting hcheck
      | error fault => simp [Program.ofActions, hcheck] at h
    rw [ofActions_of_nested hnested] at h
    exact ⟨hnested, (Except.ok.inj h).symm⟩
  · rintro ⟨hnested, rfl⟩
    exact ofActions_of_nested hnested

/-! ## Counts of one kind -/

/-- A count of the markers of one kind goes on behind a word as if the word were not there. -/
def Skips (kind : Region) (as : List Action) : Prop :=
  ∀ pending rest, closingOffset kind pending (as ++ rest) =
    (closingOffset kind pending rest).map (· + as.length)

namespace Skips

variable {kind : Region}

theorem nil : Skips kind [] := by
  intro pending rest
  simp

theorem plain {a : Action} {as : List Action} (ho : a.opens ≠ some kind)
    (hc : a.closes ≠ some kind) (h : Skips kind as) : Skips kind (a :: as) := by
  intro pending rest
  rw [List.cons_append, closingOffset.eq_def]
  simp only [if_neg ho, if_neg hc]
  rw [h, Option.map_map]
  rfl

/-- A region is skipped, of whatever kind it is: its own markers cancel out. -/
theorem region {o : Opening} {body as : List Action} (hbody : Skips kind body)
    (has : Skips kind as) : Skips kind (.enter o :: (body ++ .leave o.region :: as)) := by
  intro pending rest
  have hlength : (Action.enter o :: (body ++ .leave o.region :: as)).length =
      as.length + 1 + body.length + 1 := by
    rw [length_region]
    omega
  rw [hlength, List.cons_append, List.append_assoc, List.cons_append, closingOffset.eq_def]
  by_cases ho : o.region = kind
  · simp only [Action.opens, ho, if_true]
    rw [hbody, closingOffset]
    simp only [Action.opens, Action.closes, reduceCtorEq, if_false, if_true]
    rw [has]
    simp [Function.comp_def, Nat.add_assoc]
  · simp only [Action.opens, Action.closes, Option.some.injEq, ho, reduceCtorEq, if_false]
    rw [hbody, closingOffset.eq_def]
    simp only [Action.opens, Action.closes, Option.some.injEq, ho, reduceCtorEq, if_false]
    rw [has]
    simp [Function.comp_def, Nat.add_assoc]

theorem closingOffset_eq {body : List Action} (h : Skips kind body) (after : List Action) :
    closingOffset kind 0 (body ++ .leave kind :: after) = some body.length := by
  simp [h 0, closingOffset, Action.opens, Action.closes]

end Skips

theorem Nested.skips {as : List Action} (h : Nested as) (kind : Region) : Skips kind as := by
  induction h with
  | nil => exact .nil
  | plain ho hc _ ih => exact ih.plain (by simp [ho]) (by simp [hc])
  | region _ _ ihbody ihrest => exact ihbody.region ihrest

/-- What a count of one kind has found is an end marker of that kind. -/
theorem eq_append_of_closingOffset {kind : Region} {pending k : Nat} {as : List Action}
    (h : closingOffset kind pending as = some k) :
    as = as.take k ++ .leave kind :: as.drop (k + 1) := by
  induction as generalizing pending k with
  | nil => simp [closingOffset] at h
  | cons a as ih =>
      have hlater {p : Nat} (h : (closingOffset kind p as).map (· + 1) = some k) :
          a :: as = (a :: as).take k ++ .leave kind :: (a :: as).drop (k + 1) := by
        obtain ⟨j, hj, rfl⟩ := Option.map_eq_some_iff.mp h
        rw [List.take_succ_cons, List.cons_append, List.drop_succ_cons, ← ih hj]
      rw [closingOffset.eq_def] at h
      simp only at h
      split at h
      · exact hlater h
      · split at h
        · rename_i hc
          cases pending with
          | zero =>
              obtain rfl := Option.some.inj h
              cases a with
              | leave r => simp_all [Action.closes]
              | _ => simp [Action.closes] at hc
          | succ p => exact hlater h
        · exact hlater h

/-! ## Where a region ends -/

theorem exists_spansFrom_cons (a : Action) (as : List Action) (index : Nat) :
    ∃ span, (spansFrom index (a :: as)).1 = span :: (spansFrom (index + 1) as).1 := by
  rw [spansFrom]
  simp only
  split
  · split <;> exact ⟨_, rfl⟩
  · exact ⟨_, rfl⟩
  · exact ⟨_, rfl⟩

/-- The spans of what stands further right do not depend on what stands in front. -/
theorem drop_spansFrom (before rest : List Action) (index : Nat) :
    (spansFrom index (before ++ rest)).1.drop before.length =
      (spansFrom (index + before.length) rest).1 := by
  induction before generalizing index with
  | nil => rfl
  | cons a before ih =>
      obtain ⟨span, hspan⟩ := exists_spansFrom_cons a (before ++ rest) index
      have hindex : index + (a :: before).length = index + 1 + before.length := by
        simp only [List.length_cons]
        omega
      rw [List.cons_append, hspan, List.length_cons, List.drop_succ_cons, ih, hindex.symm]
      rfl

theorem endOf_withSpans (as : List Action) (i : Nat) :
    (Program.mk (withSpans as)).endOf i = i + (spans as)[i]?.getD 0 := by
  have hlength := length_spans as
  rw [Program.endOf, withSpans, List.getElem?_zipWith]
  by_cases hi : i < as.length
  · rw [List.getElem?_eq_getElem hi, List.getElem?_eq_getElem (hlength ▸ hi)]
    rfl
  · rw [List.getElem?_eq_none (Nat.le_of_not_lt hi),
      List.getElem?_eq_none (hlength ▸ Nat.le_of_not_lt hi)]
    rfl

/-- Where no region opens, none ends elsewhere. -/
theorem endOf_of_not_enter {as : List Action} {i : Nat} (h : ∀ o, as[i]? ≠ some (.enter o)) :
    (Program.mk (withSpans as)).endOf i = i := by
  have hspan : (spans as)[i]?.getD 0 = 0 := by
    by_cases hi : i < as.length
    · obtain ⟨before, a, after, rfl, rfl⟩ :
          ∃ before a after, as = before ++ a :: after ∧ before.length = i :=
        ⟨as.take i, as[i], as.drop (i + 1), by simp, by simp; omega⟩
      have hdrop := drop_spansFrom before (a :: after) 0
      rw [spans, ← List.head?_drop, hdrop, spansFrom]
      cases a with
      | enter o => exact absurd (by simp) (h o)
      | _ => rfl
    · rw [List.getElem?_eq_none (by rw [length_spans]; omega)]
      rfl
  rw [endOf_withSpans, hspan, Nat.add_zero]

namespace ClosedBy

variable {as : List Action} {i j k l : Nat}

theorem markers (h : ClosedBy as i j) :
    i < j ∧ j < as.length ∧ ∃ o, as[i]? = some (.enter o) ∧ as[j]? = some (.leave o.region) := by
  cases h with
  | @intro before body after o _ =>
      refine ⟨by omega, ?_, o, ?_, ?_⟩
      · simp only [List.length_append, List.length_cons]
        omega
      · simp
      · rw [Nat.add_assoc, List.getElem?_append_right (Nat.le_add_right _ _)]
        simp

/-- A region stays a region wherever its word stands. -/
theorem append (h : ClosedBy as i j) (before after : List Action) :
    ClosedBy (before ++ (as ++ after)) (before.length + i) (before.length + j) := by
  cases h with
  | @intro inner body rest o hbody =>
      have hclosed := @ClosedBy.intro (before ++ inner) body (rest ++ after) o hbody
      simpa [Nat.add_assoc] using hclosed

theorem matchingEnd_eq (h : ClosedBy as i j) : matchingEnd as i = .ok j := by
  cases h with
  | @intro before body after o hbody =>
      have hrest : (before ++ .enter o :: (body ++ .leave o.region :: after)).drop
          (before.length + 1) = body ++ .leave o.region :: after := by
        simp
      have hoffset := (hbody.skips o.region).closingOffset_eq after
      rw [matchingEnd, List.getElem?_append_right (Nat.le_refl _), Nat.sub_self, hrest]
      simp only [List.getElem?_cons_zero, Option.bind_some, Action.opens, hoffset]
      congr 1
      omega

theorem endOf_eq (h : ClosedBy as i j) : (Program.mk (withSpans as)).endOf i = j := by
  cases h with
  | @intro before body after o hbody =>
      have hspan : (spans (before ++ .enter o :: (body ++ .leave o.region :: after)))[before.length]? =
          some (body.length + 1) := by
        rw [spans, ← List.head?_drop, drop_spansFrom, spansFrom, spansFrom_append hbody, spansFrom]
        simp only [Action.opens, Action.closes, List.head?_cons, Option.some.injEq]
        omega
      rw [endOf_withSpans, hspan]
      rfl

theorem unique (h : ClosedBy as i j) (h' : ClosedBy as i k) : j = k :=
  h.endOf_eq.symm.trans h'.endOf_eq

end ClosedBy

/-- In a nested word every region is closed. -/
theorem Nested.exists_closedBy {as : List Action} (h : Nested as) {i : Nat} {o : Opening}
    (hi : as[i]? = some (.enter o)) : ∃ j, ClosedBy as i j := by
  induction h generalizing i with
  | nil => simp at hi
  | @plain a rest ho hc _ ih =>
      cases i with
      | zero =>
          rw [List.getElem?_cons_zero, Option.some.injEq] at hi
          rw [hi] at ho
          cases ho
      | succ i =>
          obtain ⟨j, hj⟩ := ih hi
          have hclosed := hj.append [a] []
          rw [List.append_nil, List.length_singleton, Nat.add_comm 1 i] at hclosed
          exact ⟨_, hclosed⟩
  | @region opening body rest hbody _ ihbody ihrest =>
      cases i with
      | zero => exact ⟨_, @ClosedBy.intro [] _ _ _ hbody⟩
      | succ i =>
          rw [List.getElem?_cons_succ] at hi
          rcases Nat.lt_trichotomy i body.length with hlt | rfl | hgt
          · rw [List.getElem?_append_left hlt] at hi
            obtain ⟨j, hj⟩ := ihbody hi
            have hclosed := hj.append [.enter opening] (.leave opening.region :: rest)
            rw [List.length_singleton, Nat.add_comm 1 i] at hclosed
            exact ⟨_, hclosed⟩
          · simp at hi
          · obtain ⟨d, rfl⟩ := Nat.exists_eq_add_of_lt hgt
            rw [List.getElem?_append_right (by omega),
              show body.length + d + 1 - body.length = d + 1 by omega,
              List.getElem?_cons_succ] at hi
            obtain ⟨j, hj⟩ := ihrest hi
            have hclosed := hj.append (.enter opening :: (body ++ [.leave opening.region])) []
            simp only [List.append_nil, List.cons_append, List.append_assoc, List.length_cons,
              List.length_append, List.length_nil, List.nil_append] at hclosed
            rw [show body.length + d + 1 + 1 = body.length + (0 + 1) + 1 + d by omega]
            exact ⟨_, hclosed⟩

/-- Of two regions the later one starts behind the earlier one or lies inside of it. -/
theorem ClosedBy.apart_or_inside {as : List Action} {i j k l : Nat} (hi : ClosedBy as i k)
    (hj : ClosedBy as j l) (hlt : i < j) : k < j ∨ l < k := by
  by_cases hk : k < j
  · exact .inl hk
  · right
    obtain ⟨-, -, o', ho', -⟩ := hj.markers
    cases hi with
    | @intro before body after o hbody =>
        obtain ⟨d, rfl⟩ := Nat.exists_eq_add_of_lt hlt
        rw [List.getElem?_append_right (by omega),
          show before.length + d + 1 - before.length = d + 1 by omega,
          List.getElem?_cons_succ] at ho'
        rcases Nat.lt_or_eq_of_le (show d ≤ body.length by omega) with hd | rfl
        · -- The later region opens in the body, so that the body's own nesting closes it there.
          rw [List.getElem?_append_left hd] at ho'
          obtain ⟨m, hm⟩ := hbody.exists_closedBy ho'
          have hbound := hm.markers.2.1
          have hinner := hm.append (before ++ [.enter o]) (.leave o.region :: after)
          simp only [List.append_assoc, List.singleton_append, List.length_append,
            List.length_singleton] at hinner
          rw [show before.length + d + 1 = before.length + 1 + d by omega] at hj
          have hl := hj.unique hinner
          omega
        · simp at ho'

/-! ## Programs -/

/-- An action list freezes exactly if its markers nest. Then every region of the program ends where
the nesting closes it, which is also where the count of its kind ends; all other positions end where
they are; and regions do not cross. -/
theorem ofActions_regions (as : List Action) :
    ((∃ p, Program.ofActions as = .ok p) ↔ Nested as) ∧
    ∀ p, Program.ofActions as = .ok p →
      p.actions = as ∧
      (∀ i o, as[i]? = some (.enter o) →
        i < p.endOf i ∧ as[p.endOf i]? = some (.leave o.region) ∧
        (∀ j, ClosedBy as i j ↔ j = p.endOf i) ∧ matchingEnd as i = .ok (p.endOf i)) ∧
      (∀ i, (∀ o, as[i]? ≠ some (.enter o)) → p.endOf i = i) ∧
      ∀ i j o o', as[i]? = some (.enter o) → as[j]? = some (.enter o') → i < j →
        p.endOf i < j ∨ p.endOf j < p.endOf i := by
  refine ⟨⟨fun ⟨p, hp⟩ => (ofActions_eq_ok_iff.mp hp).1, fun h => ⟨_, ofActions_of_nested h⟩⟩, ?_⟩
  intro p hp
  obtain ⟨hnested, rfl⟩ := ofActions_eq_ok_iff.mp hp
  have hclosed : ∀ i o, as[i]? = some (.enter o) →
      ClosedBy as i ((Program.mk (withSpans as)).endOf i) := by
    intro i o hi
    obtain ⟨j, hj⟩ := hnested.exists_closedBy hi
    rwa [hj.endOf_eq]
  refine ⟨actions_withSpans as, ?_, fun i => endOf_of_not_enter, ?_⟩
  · intro i o hi
    have hend := hclosed i o hi
    obtain ⟨hlt, -, o', ho', hleave⟩ := hend.markers
    obtain rfl : o' = o := by simpa [hi] using ho'.symm
    exact ⟨hlt, hleave, fun j => ⟨fun h => h.unique hend, fun h => h ▸ hend⟩, hend.matchingEnd_eq⟩
  · intro i j o o' hi hj hlt
    exact (hclosed i o hi).apart_or_inside (hclosed j o' hj) hlt

theorem ofActions_regions_list :
    ∃ p, Program.ofActions [.enter .nullable, .enter .list, .write .bool, .leave .list,
        .leave .nullable] = .ok p ∧
      p.endOf 0 = 4 ∧ p.endOf 1 = 3 ∧ p.endOf 2 = 2 := by
  obtain ⟨hfreezes, hregions⟩ := ofActions_regions
    [.enter .nullable, .enter .list, .write .bool, .leave .list, .leave .nullable]
  have hlist : Nested ([.enter .list, .write .bool, .leave .list] : List Action) :=
    .region (o := .list) (.write .bool) .nil
  obtain ⟨p, hp⟩ := hfreezes.mpr (.region (o := .nullable) hlist .nil)
  obtain ⟨-, hends, hother, -⟩ := hregions p hp
  refine ⟨p, hp, ?_, ?_, hother 2 (by simp)⟩
  · exact (((hends 0 .nullable rfl).2.2.1 4).mp (@ClosedBy.intro [] _ [] _ hlist)).symm
  · exact (((hends 1 .list rfl).2.2.1 3).mp
      (@ClosedBy.intro [.enter .nullable] _ [.leave .nullable] _ (.write .bool))).symm

end JsonPlan
