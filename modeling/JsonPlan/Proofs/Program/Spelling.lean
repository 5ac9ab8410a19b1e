import JsonPlan.Program.Spelling
import JsonPlan.Proofs.Program.Cost
import JsonPlan.Proofs.Program.Fusion

/-!
What a builder accumulates depends on nothing but the letters of the actions that it is given: it is
the only fused list with these letters. To fuse literals changes neither how the markers nest nor
what the list costs.
-/

open JsonPlan.Action (spelled letters)

namespace JsonPlan

/-! ## Letters -/

@[simp] theorem spelled_nil : spelled [] = [] := rfl

theorem spelled_cons (a : Action) (as : List Action) : spelled (a :: as) = a.letters ++ spelled as :=
  List.flatMap_cons

theorem spelled_append (as bs : List Action) : spelled (as ++ bs) = spelled as ++ spelled bs :=
  List.flatMap_append

theorem letters_append (s t : String) :
    (Action.literal (s ++ t)).letters = (Action.literal s).letters ++ (Action.literal t).letters := by
  simp [letters]

namespace Builder

variable {b : Builder}

/-! ## Calls -/

theorem pushAll_append (b : Builder) (as bs : List Action) :
    b.pushAll (as ++ bs) = (b.pushAll as).pushAll bs :=
  List.foldl_append

theorem run_eq (b : Builder) (calls : List Call) : b.run calls = b.pushAll (called calls) := by
  induction calls generalizing b with
  | nil => rfl
  | cons c calls ih =>
      have hcall : b.call c = b.pushAll c.actions := by
        cases c <;> rfl
      rw [called, List.flatMap_cons, pushAll_append, ← hcall]
      exact ih _

theorem called_append (calls calls' : List Call) :
    called (calls ++ calls') = called calls ++ called calls' :=
  List.flatMap_append

theorem called_push (as : List Action) : called (as.map .push) = as := by
  simp [called, List.flatMap_map, Call.actions]

theorem pushAll_letters (b : Builder) (a : Action) : b.pushAll a.letters = b.push a := by
  cases a with
  | literal text =>
      have htext : ∀ cs : List Char,
          b.pushAll (cs.map fun c => .literal c.toString) = b.literal (.ofList cs) := by
        intro cs
        induction cs using List.reverseRecOn with
        | nil => rfl
        | append_singleton cs c ih =>
            have hlast : (String.ofList cs) ++ c.toString = .ofList (cs ++ [c]) := by
              rw [← String.toList_inj]
              simp
            rw [List.map_append, pushAll_append, ih, ← hlast, ← literal_literal]
            rfl
      rw [letters, htext, String.ofList_toList]
      rfl
  | _ => rfl

/-- Actions are accumulated letter by letter. -/
theorem pushAll_spelled (b : Builder) (as : List Action) : b.pushAll (spelled as) = b.pushAll as := by
  induction as generalizing b with
  | nil => rfl
  | cons a as ih =>
      rw [spelled_cons, pushAll_append, pushAll_letters, ih]
      rfl

/-! ## One more action -/

/-- What becomes of a builder and one more action. -/
inductive Pushes (b : Builder) : Action → Builder → Prop where
  | nothing : Pushes b (.literal "") b
  | joined {last text : String} {rest : List Action} (hb : b.reversed = .literal last :: rest)
      (ht : text ≠ "") : Pushes b (.literal text) ⟨.literal (last ++ text) :: rest⟩
  | added {a : Action} (ha : a ≠ .literal "")
      (happart : a.isLiteral = true → ∀ last ∈ b.reversed.head?, last.isLiteral = false) :
      Pushes b a ⟨a :: b.reversed⟩

theorem pushes_push (b : Builder) (a : Action) : b.Pushes a (b.push a) := by
  cases a with
  | literal text =>
      by_cases ht : text = ""
      · subst ht
        exact .nothing
      have hpush : b.push (.literal text) = b.literal text := rfl
      rcases b with ⟨_ | ⟨last, rest⟩⟩
      · rw [hpush, literal, if_neg (by simpa using ht)]
        exact .added (by simpa using ht) (by simp)
      · rw [hpush, literal, if_neg (by simpa using ht)]
        cases last with
        | literal last => exact .joined rfl ht
        | _ => exact .added (by simpa using ht) (by simp [Action.isLiteral])
  | _ => exact .added (by simp) (by simp [Action.isLiteral])

theorem Pushes.spelled_eq {b b' : Builder} {a : Action} (h : b.Pushes a b') :
    spelled b'.actions = spelled b.actions ++ a.letters := by
  cases h with
  | nothing => simp [letters]
  | joined hb ht => simp [actions, hb, spelled_append, spelled_cons, letters_append]
  | added ha happart => simp [actions, spelled_append, spelled_cons]

theorem Pushes.fused {b b' : Builder} {a : Action} (h : b.Pushes a b') (hb : Fused b.reversed) :
    Fused b'.reversed := by
  cases h with
  | nothing => exact hb
  | @joined last text rest hreversed ht =>
      rw [hreversed] at hb
      exact hb.tail.literal_head (by simp [ht]) hb.head_of_literal
  | added ha happart =>
      cases a with
      | literal text => exact hb.literal_head (by simpa using ha) (happart rfl)
      | _ => exact hb.cons rfl

/-! ## What is accumulated -/

theorem spelled_pushAll (b : Builder) (as : List Action) :
    spelled (b.pushAll as).actions = spelled b.actions ++ spelled as := by
  induction as generalizing b with
  | nil => simp [pushAll]
  | cons a as ih =>
      have hpush : b.pushAll (a :: as) = (b.push a).pushAll as := rfl
      rw [hpush, ih, (pushes_push b a).spelled_eq, spelled_cons, List.append_assoc]

theorem fused_pushAll (h : Fused b.reversed) (as : List Action) :
    Fused (b.pushAll as).reversed := by
  induction as generalizing b with
  | nil => exact h
  | cons a as ih => exact ih ((pushes_push b a).fused h)

theorem fused_run (calls : List Call) : Fused (empty.run calls).actions := by
  rw [run_eq]
  exact (fused_pushAll (b := empty) Fused.nil _).reverse

/-- A fused list is accumulated again from its letters. -/
theorem actions_pushAll_spelled {as : List Action} (h : Fused as) :
    (empty.pushAll (spelled as)).actions = as := by
  rw [pushAll_spelled, actions_pushAll h (.inl rfl), actions_empty, List.nil_append]

end Builder

/-! ## Markers -/

/-- Whether an action opens or closes a region. -/
def Action.isMarker (a : Action) : Bool := a.opens.isSome || a.closes.isSome

theorem isMarker_eq_false {a : Action} :
    a.isMarker = false ↔ a.opens = none ∧ a.closes = none := by
  simp [Action.isMarker]

theorem filter_spelled (as : List Action) :
    (spelled as).filter Action.isMarker = as.filter Action.isMarker := by
  induction as with
  | nil => rfl
  | cons a as ih =>
      rw [spelled_cons, List.filter_append, ih]
      cases a with
      | literal text =>
          have hletters : (Action.literal text).letters.filter Action.isMarker = [] := by
            rw [List.filter_eq_nil_iff]
            intro a ha
            obtain ⟨c, -, rfl⟩ := List.mem_map.mp ha
            exact Bool.false_ne_true
          rw [hletters]
          rfl
      | _ => rfl

theorem Nested.filter {as : List Action} (h : Nested as) :
    Nested (as.filter Action.isMarker) := by
  induction h with
  | nil => exact .nil
  | plain ho hc _ ih =>
      rwa [List.filter_cons_of_neg (by simp [isMarker_eq_false.mpr ⟨ho, hc⟩])]
  | region _ _ ihbody ihrest =>
      rw [List.filter_cons_of_pos rfl, List.filter_append, List.filter_cons_of_pos rfl]
      exact .region ihbody ihrest

theorem nested_append_of_filter {as bs : List Action} (h : as.filter Action.isMarker = [])
    (hbs : Nested bs) : Nested (as ++ bs) := by
  induction as with
  | nil => exact hbs
  | cons a as ih =>
      have hplain := List.filter_eq_nil_iff.mp h
      obtain ⟨ho, hc⟩ := isMarker_eq_false.mp (Bool.eq_false_iff.mpr (hplain a List.mem_cons_self))
      exact .plain ho hc (ih (List.filter_eq_nil_iff.mpr fun b hb =>
        hplain b (List.mem_cons_of_mem a hb)))

theorem nested_of_filter {word : List Action} (h : Nested word) {as : List Action}
    (has : as.filter Action.isMarker = word) : Nested as := by
  induction h generalizing as with
  | nil =>
      have hnested := nested_append_of_filter has .nil
      rwa [List.append_nil] at hnested
  | @plain a _ ho hc _ _ =>
      have ha : a ∈ as.filter Action.isMarker := by rw [has]; exact List.mem_cons_self
      have hmarker := (List.mem_filter.mp ha).2
      rw [isMarker_eq_false.mpr ⟨ho, hc⟩] at hmarker
      cases hmarker
  | region _ _ ihbody ihrest =>
      obtain ⟨front, inner, after, rfl, hfront, -, hbody, hrest⟩ := exists_of_filter_eq_region has
      exact nested_append_of_filter hfront (.region (ihbody hbody) (ihrest hrest))

/-- How a list nests is a matter of its markers alone, and literals in letters leave them alone. -/
theorem nested_spelled {as : List Action} : Nested (spelled as) ↔ Nested as :=
  ⟨fun h => nested_of_filter h.filter (filter_spelled as).symm,
    fun h => nested_of_filter h.filter (filter_spelled as)⟩

theorem nested_iff_of_spelled_eq {as bs : List Action} (h : spelled as = spelled bs) :
    Nested as ↔ Nested bs := by
  rw [← nested_spelled, h, nested_spelled]

/-! ## Costs -/

namespace CostTable.Costs

variable {t : CostTable}

/-- The bytes of a text are those of its characters. -/
theorem letters (t : CostTable) {a : Action} (h : a.repeats = false) :
    t.Costs a.letters (t.actionCost a) := by
  cases a with
  | literal text =>
      have htext : ∀ cs : List Char, t.Costs (cs.map fun c => .literal c.toString)
          (String.ofList cs).utf8ByteSize := by
        intro cs
        induction cs with
        | nil => exact .nil
        | cons c cs ih =>
            have hsize : (String.ofList (c :: cs)).utf8ByteSize =
                c.toString.utf8ByteSize + (String.ofList cs).utf8ByteSize := by
              rw [Char.toString, ← String.utf8ByteSize_append, ← String.ofList_cons]
            rw [hsize]
            exact ih.literal c.toString
      have hcosts := htext text.toList
      rwa [String.ofList_toList] at hcosts
  | _ => exact .plain h .nil

theorem spelled {as : List Action} {x : Nat} (h : t.Costs as x) :
    t.Costs (Action.spelled as) x := by
  induction h with
  | nil => exact .nil
  | plain ha _ ih =>
      rw [spelled_cons]
      exact (Costs.letters t ha).append ih
  | @region o body rest b x ho _ _ ihbody ihrest =>
      have hregion : Action.spelled (.enter o :: (body ++ .leave o.region :: rest)) =
          .enter o :: (Action.spelled body ++ .leave o.region :: Action.spelled rest) := by
        rw [spelled_cons, spelled_append, spelled_cons]
        rfl
      rw [hregion]
      exact .region ho ihbody ihrest

end CostTable.Costs

theorem CostTable.estimate_of_spelled_eq (t : CostTable) {as bs : List Action}
    (h : spelled as = spelled bs) (hnested : Nested as) :
    ∃ size, t.estimate as = .ok size ∧ t.estimate bs = .ok size := by
  obtain ⟨x, hx⟩ := t.exists_costs hnested
  obtain ⟨y, hy⟩ := t.exists_costs ((nested_iff_of_spelled_eq h).mp hnested)
  have hspelled := hx.spelled
  rw [h] at hspelled
  obtain rfl := hspelled.unique hy.spelled
  exact ⟨_, estimate_of_costs hx, estimate_of_costs hy⟩

/-! ## Programs -/

namespace Builder

/-- A builder accumulates the one fused list that has the letters of the actions it was given. So it
does not matter how a text is divided over calls, and a program is given action by action. The list
freezes exactly if the actions do as they were given, and then both have one estimate. -/
theorem run_normal_form (calls : List Call) :
    (∀ as, as = (empty.run calls).actions ↔ Fused as ∧ spelled as = spelled (called calls)) ∧
    (∀ calls', spelled (called calls') = spelled (called calls) →
      empty.run calls' = empty.run calls) ∧
    (∀ p : Program, (empty.run calls).extend p = empty.run (calls ++ p.actions.map .push)) ∧
    ((∃ p, (empty.run calls).freeze = .ok p) ↔ ∃ q, Program.ofActions (called calls) = .ok q) ∧
    ∀ p q, (empty.run calls).freeze = .ok p → Program.ofActions (called calls) = .ok q →
      ∀ t : CostTable, ∃ size, t.estimate p.actions = .ok size ∧ t.estimate q.actions = .ok size := by
  have hspelled : spelled (empty.run calls).actions = spelled (called calls) := by
    rw [run_eq, spelled_pushAll, actions_empty, spelled_nil, List.nil_append]
  refine ⟨fun as => ⟨?_, ?_⟩, ?_, ?_, ?_, ?_⟩
  · rintro rfl
    exact ⟨fused_run calls, hspelled⟩
  · rintro ⟨hfused, hletters⟩
    rw [run_eq, ← pushAll_spelled, ← hletters, actions_pushAll_spelled hfused]
  · intro calls' hletters
    rw [run_eq, run_eq, ← pushAll_spelled, hletters, pushAll_spelled]
  · intro p
    rw [run_eq, run_eq, called_append, called_push, pushAll_append]
    rfl
  · have hfreeze (as : List Action) : (∃ p, Program.ofActions as = .ok p) ↔ Nested as :=
      ⟨fun ⟨p, hp⟩ => (ofActions_eq_ok_iff.mp hp).1, fun h => ⟨_, ofActions_of_nested h⟩⟩
    rw [freeze, hfreeze, hfreeze, nested_iff_of_spelled_eq hspelled]
  · intro p q hp hq t
    obtain ⟨hnested, rfl⟩ := ofActions_eq_ok_iff.mp hp
    obtain ⟨-, rfl⟩ := ofActions_eq_ok_iff.mp hq
    rw [actions_withSpans, actions_withSpans]
    exact t.estimate_of_spelled_eq hspelled hnested

example : empty.run [.literal "ab", .push (.write .int)] =
    empty.run [.literal "a", .push (.literal ""), .literal "b", .push (.write .int)] := by
  decide

end Builder
end JsonPlan
