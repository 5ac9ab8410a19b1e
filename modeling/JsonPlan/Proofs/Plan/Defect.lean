import JsonPlan.Proofs.Plan.Compile
import JsonPlan.Proofs.Shape.Defect

/-!
When a shape has a program, and what the first request for it meets if it has none. Compilation
never returns to a shape that it came over, so that it nests no deeper than there are shapes.
-/

namespace JsonPlan.Schema

variable {n : Nat} {S : Schema n} {includeInherited : Bool}

/-! ## Depth -/

theorem compile_eq_compileOne (path : List (Fin n)) (t : Fin n) :
    S.compile includeInherited path t =
      S.compileOne includeInherited (S.compile includeInherited (t :: path)) path t := by
  rw [compile]
  rfl

/-- What stands for the shapes that one refers to matters only off the path. -/
theorem compileOne_congr {child child' : Fin n → PlanM n Program} {path : List (Fin n)} {t : Fin n}
    (h : t ∉ path → child = child') :
    S.compileOne includeInherited child path t = S.compileOne includeInherited child' path t := by
  by_cases ht : t ∈ path
  · simp only [compileOne, if_pos ht]
  · rw [h ht]

theorem compileWithin_eq (cut : PlanM n Program) {depth : Nat} {path : List (Fin n)}
    (h : offPath path < depth) (t : Fin n) :
    S.compileWithin cut includeInherited depth path t = S.compile includeInherited path t := by
  induction depth generalizing path t with
  | zero => cases h
  | succ depth ih =>
      rw [compileWithin, compile_eq_compileOne]
      apply compileOne_congr
      intro ht
      funext u
      have hlt := offPath_cons_lt ht
      exact ih (by omega) u

theorem offPath_nil : offPath ([] : List (Fin n)) = n := by
  simp [offPath]

/-! ## Failures of the walk -/

theorem failure?_memberLayout (child : Fin n → Except Error Layout) (m : Member n) :
    failure? (S.memberLayout child m) =
      if (S m.shape).kind.isStringLike then none else failure? (child m.shape) := by
  rw [memberLayout]
  cases ha : (S m.shape).kind.stringLike? with
  | some a => simp [(Kind.isStringLike_of_stringLike? ha).1]
  | none => simp [Kind.isStringLike_of_stringLike?_eq_none ha]

theorem failure?_layoutMembers (child : Fin n → Except Error Layout) (members : List (Member n)) :
    failure? (S.layoutMembers child members) =
      ((members.map (·.shape)).filter fun u => !(S u).kind.isStringLike).findSome? fun u =>
        failure? (child u) := by
  induction members with
  | nil => rfl
  | cons m rest ih =>
      have hm := failure?_memberLayout (S := S) child m
      rw [layoutMembers, failure?_bind]
      cases hL : S.memberLayout child m with
      | error e =>
          rw [hL, failure?_error] at hm
          cases hlike : (S m.shape).kind.isStringLike with
          | true => simp [hlike] at hm
          | false => simp [hlike] at hm; simp [hlike, ← hm]
      | ok L =>
          have hrest : failure? (do return (m.toPlace, L) :: (← S.layoutMembers child rest)) =
              failure? (S.layoutMembers child rest) := failure?_map _ _
          rw [hL, failure?_ok] at hm
          simp only [hrest, ih]
          cases hlike : (S m.shape).kind.isStringLike with
          | true => simp [hlike]
          | false => simp [hlike] at hm; simp [hlike, ← hm]

/-- A shape with nothing wrong in itself fails as the first of its parts that does. -/
theorem failure?_unfold (child : Fin n → Except Error Layout) {path : List (Fin n)} {t : Fin n}
    (h : S.defect? path t = none) :
    failure? (S.unfold includeInherited child (S t)) =
      (S.parts includeInherited t).findSome? fun u => failure? (child u) := by
  obtain ⟨-, hkind, hkey⟩ := defect?_eq_none.mp h
  rw [unfold, parts]
  cases hk : (S t).kind with
  | primitive p => rfl
  | string => rfl
  | optional u => simp
  | sequence u => simp
  | map key u => simp [hkey key u hk]
  | composite owner members => simp [failure?_layoutMembers]
  | unencodable => exact absurd hk hkind

theorem failure?_unfold_of_defect? (child : Fin n → Except Error Layout) {path : List (Fin n)}
    {t : Fin n} {e : Error} (ht : t ∉ path) (h : S.defect? path t = some e) :
    failure? (S.unfold includeInherited child (S t)) = some e := by
  rw [defect?, if_neg (mt List.contains_iff_mem.mp ht)] at h
  rw [unfold]
  cases hk : (S t).kind with
  | map key u =>
      rw [hk] at h
      simp only at h
      split at h
      · cases h
      · cases hkey : (S key).kind <;> simp_all
  | _ => simp_all

/-- The walk that unfolds a shape meets the first defect, and fails only if there is one. -/
theorem failure?_layoutFrom (path : List (Fin n)) (t : Fin n) :
    (failure? (S.layoutFrom includeInherited path t) = none ↔
      ∀ turns, S.defectAt includeInherited path t turns = none) ∧
    ∀ e, failure? (S.layoutFrom includeInherited path t) = some e ↔
      S.FirstDefect includeInherited path t e := by
  cases hd : S.defect? path t with
  | some d =>
      have hfailure : failure? (S.layoutFrom includeInherited path t) = some d := by
        rw [layoutFrom]
        by_cases ht : t ∈ path
        · rw [dif_pos ht, failure?_error, ← defect?_of_mem ht, hd]
        · rw [dif_neg ht, failure?_unfold_of_defect? _ ht hd]
      have hhere : S.defectAt includeInherited path t [] = some d := hd
      refine ⟨?_, fun e => ?_⟩
      · simp only [hfailure, reduceCtorEq, false_iff]
        intro hall
        rw [hall] at hhere
        cases hhere
      · rw [hfailure, firstDefect_of_defect? hd, Option.some.injEq]
  | none =>
      have ht : t ∉ path := (defect?_eq_none.mp hd).1
      have hparts := fun u => failure?_layoutFrom (t :: path) u
      rw [layoutFrom, dif_neg ht, failure?_unfold _ hd]
      refine ⟨?_, fun e => ?_⟩
      · rw [defectAt_eq_none_of_parts hd, List.findSome?_eq_none_iff]
        exact forall₂_congr fun u _ => (hparts u).1
      · rw [firstDefect_of_parts hd, List.findSome?_eq_some_iff]
        refine exists_congr fun before => exists_congr fun u => exists_congr fun after => ?_
        rw [(hparts u).2 e]
        exact and_congr_right' (and_congr_right' (forall₂_congr fun w _ => (hparts w).1))
termination_by offPath path
decreasing_by exact offPath_cons_lt ht

theorem exists_layout_iff {t : Fin n} :
    (∃ L, S.layout includeInherited t = .ok L) ↔ S.Compilable includeInherited t := by
  rw [← failure?_eq_none, layout, (failure?_layoutFrom [] t).1, defectAt_eq_none_iff]

/-! ## First requests -/

theorem failure?_plan (S : Schema n) (includeInherited : Bool) (t : Fin n) :
    failure? (S.plan .empty t includeInherited).1 =
      failure? (S.layoutFrom includeInherited [] t) := by
  rw [(plan_eq (PlanCache.sound_empty S) t).1, failure?_map, layout]

/-- A composite of a count and of any number of composites like itself. -/
def tree : Schema 3
  | 0 => ⟨"Node", .composite "Node"
      [⟨"count", .field 0, false, 1, 0⟩, ⟨"children", .field 8, false, 2, 1⟩]⟩
  | 1 => ⟨"i64", .primitive .int⟩
  | 2 => ⟨"Vec", .sequence 0⟩

def treeRoot : Fin 3 := 0

/-- Nothing is wrong with the count; the composites inside lead back to the one outside. -/
theorem firstDefect_tree :
    tree.FirstDefect false [] treeRoot (.recursiveShape "Node") := by
  have hcount : ∀ turns, tree.defectAt false [0] 1 turns = none :=
    (defectAt_eq_none_of_parts rfl).mpr (by simp [parts, tree])
  have hback : tree.FirstDefect false [0] 2 (.recursiveShape "Node") :=
    (firstDefect_of_parts rfl).mpr
      ⟨[], 0, [], rfl, (firstDefect_of_defect? rfl).mpr rfl, by simp⟩
  refine (firstDefect_of_parts rfl).mpr ⟨[1], 2, [], rfl, hback, fun u hu => ?_⟩
  rw [List.mem_singleton.mp hu]
  exact hcount

/-- The first request for a shape succeeds exactly if the graph from the shape on has no defect, and
fails with the first one in depth-first order otherwise; only shapes on cycles are recursive. No
call is nested deeper than there are shapes, so that it makes no difference what a deeper one would
do. -/
theorem plan_empty_outcome (S : Schema n) (includeInherited : Bool) (t : Fin n) :
    ((∃ p, (S.plan .empty t includeInherited).1 = .ok p) ↔ S.Compilable includeInherited t) ∧
    (∀ e, (S.plan .empty t includeInherited).1 = .error e ↔
      S.FirstDefect includeInherited [] t e) ∧
    (∀ name, (S.plan .empty t includeInherited).1 = .error (.recursiveShape name) →
      ∃ u v, S.Reaches includeInherited t u ∧ v ∈ S.parts includeInherited u ∧
        S.Reaches includeInherited v u ∧ (S u).name = name) ∧
    ∀ cut, (S.compileWithin cut includeInherited (n + 1) [] t).run.run .empty =
      S.plan .empty t includeInherited := by
  obtain ⟨hnone, hsome⟩ := @failure?_layoutFrom n S includeInherited [] t
  have hfirst : ∀ e, (S.plan .empty t includeInherited).1 = .error e ↔
      S.FirstDefect includeInherited [] t e := by
    intro e
    rw [← hsome, ← failure?_plan, failure?_eq_some]
  refine ⟨?_, hfirst, fun name h => ((hfirst _).mp h).cycle, fun cut => ?_⟩
  · rw [← failure?_eq_none, failure?_plan, hnone, defectAt_eq_none_iff]
  · rw [compileWithin_eq cut (by rw [offPath_nil]; exact Nat.lt_succ_self n)]
    rfl

theorem plan_empty_outcome_tree :
    (tree.plan .empty treeRoot false).1 = .error (.recursiveShape "Node") ∧
      ∃ u v, tree.Reaches false treeRoot u ∧ v ∈ tree.parts false u ∧ tree.Reaches false v u ∧
        (tree u).name = "Node" := by
  obtain ⟨-, hfirst, hcycle, -⟩ := plan_empty_outcome tree false treeRoot
  have herror := (hfirst _).mpr firstDefect_tree
  exact ⟨herror, hcycle _ herror⟩

end JsonPlan.Schema
