import JsonPlan.Layout.Cost
import JsonPlan.Proofs.Layout.Actions
import JsonPlan.Proofs.Program.Cost
import Mathlib.Algebra.GroupWithZero.Nat

/-! The program of a layout costs what the layout costs, whoever writes the quotes. -/

namespace JsonPlan.Layout

variable {t : CostTable}

/-! ## Equations -/

theorem cost_atom (t : CostTable) (a : Atom) : cost t (.atom a) = t.leafCost (a.leaf true) := by
  rw [cost]

theorem cost_optional (t : CostTable) (inner : Layout) :
    cost t (.optional inner) = cost t inner := by
  rw [cost]

theorem cost_sequence (t : CostTable) (element : Layout) :
    cost t (.sequence element) = t.fanOut * cost t element + t.overhead := by
  rw [cost]

theorem cost_map (t : CostTable) (value : Layout) :
    cost t (.map value) = t.fanOut * cost t value + t.overhead := by
  rw [cost]

/-- What a member adds to the cost of a composite, commas aside. -/
def memberCost (t : CostTable) (m : Place × Layout) : Nat :=
  (Json.memberName m.1.name).utf8ByteSize + (if m.2.isStringLike then 2 else 0) + m.2.cost t

theorem cost_composite (t : CostTable) (owner : String) (members : List (Place × Layout)) :
    cost t (.composite owner members) =
      2 + (members.length - 1) + (members.map (memberCost t)).sum := by
  rw [cost, List.sum]
  rfl

/-! ## Programs -/

theorem leafCost_leaf (t : CostTable) (quoted : Bool) (a : Atom) :
    t.leafCost (a.leaf quoted) = t.leafCost (a.leaf true) := by
  cases a with
  | string => rfl
  | primitive p => cases p <;> rfl

theorem utf8ByteSize_quote (L : Layout) :
    L.quote.utf8ByteSize + L.quote.utf8ByteSize = if L.isStringLike then 2 else 0 := by
  rw [quote]
  split <;> rfl

/-- Members in a row cost what was pending, a comma between neighbours, the members and a brace. -/
theorem costs_memberActions {members : List (Place × Layout)}
    (h : ∀ m ∈ members, t.Costs (m.2.actions false) (m.2.cost t)) (owner pending separator : String) :
    t.Costs (memberActions owner pending separator (members.map part))
      (pending.utf8ByteSize + (if members.isEmpty then 0 else separator.utf8ByteSize) +
        (members.length - 1) + (members.map (memberCost t)).sum + 1) := by
  induction members generalizing pending separator with
  | nil =>
      have hclose : (pending ++ "\x7d").utf8ByteSize = pending.utf8ByteSize + 1 :=
        String.utf8ByteSize_append
      simpa [memberActions, hclose] using CostTable.Costs.literal (pending ++ "\x7d") (.nil (t := t))
  | cons m rest ih =>
      have hrest := ih (fun p hp => h p (List.mem_cons_of_mem m hp)) m.2.quote ","
      have hregion := CostTable.Costs.once (o := .member (m.1.ref owner)) rfl
        (h m List.mem_cons_self) hrest
      have hquote := utf8ByteSize_quote m.2
      have hone : ("," : String).utf8ByteSize = 1 := rfl
      have hcommas : (if rest.isEmpty then 0 else ("," : String).utf8ByteSize) + (rest.length - 1) =
          (m :: rest).length - 1 := by
        cases rest <;> simp [hone, Nat.add_comm]
      have hcosts := hregion.literal (pending ++ separator ++ Json.memberName m.1.name ++ m.2.quote)
      simp only [String.utf8ByteSize_append] at hcosts
      rw [List.map_cons, List.map_cons, List.sum_cons, memberCost, List.isEmpty_cons,
        if_neg Bool.false_ne_true]
      refine Eq.subst ?_ hcosts
      omega

theorem costs_actions (t : CostTable) (L : Layout) (quoted : Bool) :
    t.Costs (L.actions quoted) (L.cost t) := by
  induction L generalizing quoted with
  | atom a =>
      rw [actions_atom, cost_atom, ← leafCost_leaf t quoted]
      exact .write _
  | optional inner ih =>
      rw [actions_optional, cost_optional]
      exact .once rfl (ih true) .nil
  | sequence element ih =>
      rw [actions_sequence, cost_sequence]
      exact .region rfl (ih true) .nil
  | map value ih =>
      rw [actions_map, cost_map]
      exact .region rfl (ih true) .nil
  | composite owner members ih =>
      have hopen : ("\x7b" : String).utf8ByteSize = 1 := rfl
      have hmembers := costs_memberActions (fun m hm => ih m hm false) owner "\x7b" ""
      simp only [hopen, String.utf8ByteSize_empty, ite_self] at hmembers
      rw [actions_composite, cost_composite]
      refine Eq.subst ?_ hmembers
      omega

/-- The estimate of a layout's program is the layout's cost, cut off at the largest size. -/
theorem estimate_program (t : CostTable) (L : Layout) :
    t.estimate L.program.actions = .ok (min maxSize (L.cost t)) := by
  rw [actions_program]
  exact CostTable.estimate_of_costs (costs_actions t L true)

end JsonPlan.Layout
