import JsonPlan.Capacity

/-! A remembered size is that of the last record for its key. -/

namespace JsonPlan.CapacityCache

theorem get?_set_self (c : CapacityCache) (k : CapacityKey) (raw : Nat) :
    (c.set k raw).get? k = some (Capacity.bucket raw) := by
  rw [get?, set, List.lookup_cons_self]

theorem lookup_filter_ne {k k' : CapacityKey} (h : k' ≠ k) (entries : List (CapacityKey × Nat)) :
    (entries.filter (·.1 ≠ k)).lookup k' = entries.lookup k' := by
  induction entries with
  | nil => rfl
  | cons entry rest ih =>
      by_cases hentry : entry.1 = k
      · have hne : (k' == entry.1) = false := by rw [hentry]; exact beq_false_of_ne h
        rw [List.filter_cons_of_neg (by simp [hentry]), ih, List.lookup_cons, hne]
      · rw [List.filter_cons_of_pos (by simp [hentry]), List.lookup_cons, List.lookup_cons, ih]

theorem get?_set_of_ne (c : CapacityCache) {k k' : CapacityKey} (h : k' ≠ k) (raw : Nat) :
    (c.set k raw).get? k' = c.get? k' := by
  have hne : (k' == k) = false := beq_false_of_ne h
  rw [get?, set, List.lookup_cons, hne]
  exact lookup_filter_ne h c.entries

/-! ## Records one after another -/

/-- Records sizes, the first one first. -/
def setAll (c : CapacityCache) (writes : List (CapacityKey × Nat)) : CapacityCache :=
  writes.foldl (fun c w => c.set w.1 w.2) c

@[simp] theorem setAll_nil (c : CapacityCache) : c.setAll [] = c := rfl

theorem setAll_append (c : CapacityCache) (ws ws' : List (CapacityKey × Nat)) :
    c.setAll (ws ++ ws') = (c.setAll ws).setAll ws' :=
  List.foldl_append

/-- A key has the size of its latest record, and without one the size that it had. -/
theorem get?_setAll (c : CapacityCache) (ws : List (CapacityKey × Nat)) (k : CapacityKey) :
    (c.setAll ws).get? k = ((ws.reverse.lookup k).map Capacity.bucket).or (c.get? k) := by
  induction ws generalizing c with
  | nil => rfl
  | cons w rest ih =>
      obtain ⟨k', raw⟩ := w
      have hrest : (c.setAll ((k', raw) :: rest)).get? k =
          ((rest.reverse.lookup k).map Capacity.bucket).or ((c.set k' raw).get? k) := ih _
      rw [hrest, List.reverse_cons, List.lookup_append]
      cases rest.reverse.lookup k with
      | some later => rfl
      | none =>
          by_cases hk : k = k'
          · rw [hk, get?_set_self, List.lookup_cons_self]
            rfl
          · have hne : (k == k') = false := beq_false_of_ne hk
            rw [get?_set_of_ne c hk, List.lookup_cons, hne]
            rfl

/-- Records replace sizes but do not remove any. -/
theorem exists_get?_setAll {c : CapacityCache} {k : CapacityKey} {size : Nat}
    (h : c.get? k = some size) (ws : List (CapacityKey × Nat)) :
    ∃ size', (c.setAll ws).get? k = some size' := by
  rw [get?_setAll, h]
  cases ws.reverse.lookup k with
  | some raw => exact ⟨_, rfl⟩
  | none => exact ⟨size, rfl⟩

end JsonPlan.CapacityCache
