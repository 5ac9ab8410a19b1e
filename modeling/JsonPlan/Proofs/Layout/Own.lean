import JsonPlan.Layout.Tree
import JsonPlan.Proofs.Layout.Unfolding
import JsonPlan.Proofs.Layout.Visit
import JsonPlan.Proofs.Layout.Fit
import JsonPlan.Proofs.Shape.Order

/-!
Leaving the inherited members out of a layout. What is left is the layout without them, it takes the
same views, and its tree is what is left of the tree.
-/

namespace JsonPlan

namespace Layout

variable {L K : Layout} {v w : View}

/-! ## Equations -/

@[simp] theorem own_atom (a : Atom) : own (.atom a) = .atom a := by
  rw [own]

@[simp] theorem own_optional (inner : Layout) : own (.optional inner) = .optional (own inner) := by
  rw [own]

@[simp] theorem own_sequence (element : Layout) :
    own (.sequence element) = .sequence (own element) := by
  rw [own]

@[simp] theorem own_map (value : Layout) : own (.map value) = .map (own value) := by
  rw [own]

/-- The members of a composite that are not inherited, and what is left of each. -/
def ownMembers (members : List (Place × Layout)) : List (Place × Layout) :=
  (members.map fun m => (m.1, m.2.own)).filter fun m => !m.1.inherited

@[simp] theorem own_composite (owner : String) (members : List (Place × Layout)) :
    own (.composite owner members) = .composite owner (ownMembers members) := by
  rw [own]
  rfl

theorem mem_ownMembers {members : List (Place × Layout)} {m : Place × Layout} :
    m ∈ ownMembers members ↔ m.1.inherited = false ∧ ∃ K, (m.1, K) ∈ members ∧ K.own = m.2 := by
  simp only [ownMembers, List.mem_filter, List.mem_map, Bool.not_eq_true', Prod.exists]
  constructor
  · rintro ⟨⟨place, K, hK, rfl⟩, hown⟩
    exact ⟨hown, K, hK, rfl⟩
  · rintro ⟨hown, K, hK, hm⟩
    exact ⟨⟨m.1, K, hK, by rw [hm]⟩, hown⟩

theorem map_fst_ownMembers (members : List (Place × Layout)) :
    (ownMembers members).map Prod.fst = (members.map Prod.fst).filter fun p => !p.inherited := by
  rw [ownMembers, List.filter_map, List.map_map, List.filter_map]
  rfl

/-! ## Views -/

theorem conforms_own (h : L.conforms v) : L.own.conforms v := by
  induction L generalizing v with
  | atom a => rwa [own_atom]
  | optional inner ih =>
      rw [own_optional, conforms_optional]
      exact (conforms_optional.mp h).imp_right ih
  | sequence element ih =>
      obtain ⟨items, rfl, hitems⟩ := conforms_sequence.mp h
      rw [own_sequence, conforms_sequence]
      exact ⟨items, rfl, fun w hw => ih (hitems w hw)⟩
  | map value ih =>
      obtain ⟨entries, rfl, hentries⟩ := conforms_map.mp h
      rw [own_map, conforms_map]
      exact ⟨entries, rfl, fun e he => ⟨(hentries e he).1, ih (hentries e he).2⟩⟩
  | composite owner members ih =>
      obtain ⟨fields, rfl, hfields⟩ := conforms_composite.mp h
      rw [own_composite, conforms_composite]
      refine ⟨fields, rfl, fun m hm => ?_⟩
      obtain ⟨-, K, hK, hm⟩ := mem_ownMembers.mp hm
      obtain ⟨w, hw, hconforms⟩ := hfields _ hK
      exact ⟨w, hw, hm ▸ ih _ hK hconforms⟩

/-- A run without the inherited members comes to no other places. -/
theorem exists_visits_of_own (h : Visits L.own v K w) :
    ∃ M, Visits L v M w ∧ M.own = K := by
  generalize hL : L.own = L' at h
  induction h generalizing L with
  | here => exact ⟨L, .here, hL⟩
  | optional present _ ih =>
      cases L with
      | optional inner =>
          simp only [own_optional, Layout.optional.injEq] at hL
          obtain ⟨M, hM, hown⟩ := ih hL
          exact ⟨M, .optional present hM, hown⟩
      | _ => simp at hL
  | item mem _ ih =>
      cases L with
      | sequence element =>
          simp only [own_sequence, Layout.sequence.injEq] at hL
          obtain ⟨M, hM, hown⟩ := ih hL
          exact ⟨M, .item mem hM, hown⟩
      | _ => simp at hL
  | entry mem _ ih =>
      cases L with
      | map value =>
          simp only [own_map, Layout.map.injEq] at hL
          obtain ⟨M, hM, hown⟩ := ih hL
          exact ⟨M, .entry mem hM, hown⟩
      | _ => simp at hL
  | member mem read _ ih =>
      cases L with
      | composite owner members =>
          simp only [own_composite, Layout.composite.injEq] at hL
          obtain ⟨rfl, rfl⟩ := hL
          obtain ⟨-, inner, hinner, hm⟩ := mem_ownMembers.mp mem
          obtain ⟨M, hM, hown⟩ := ih hm
          exact ⟨M, .member hinner read hM, hown⟩
      | _ => simp at hL

theorem finiteFloats_own (h : L.FiniteFloats v) : L.own.FiniteFloats v := by
  intro a w hvisits
  obtain ⟨M, hM, hown⟩ := exists_visits_of_own hvisits
  cases M with
  | atom b =>
      obtain rfl : b = a := by simpa using hown
      exact h b w hM
  | _ => simp at hown

/-! ## Trees -/

theorem prune_null (L : Layout) : L.prune .null = .null := by
  induction L with
  | optional inner ih => rw [prune, ih]
  | _ => rw [prune.eq_def]

/-- The entries that are left of a composite are those of the members that are not inherited. -/
theorem prune_entries {members : List (Place × Layout)} {value left : Place × Layout → Json}
    (h : ∀ m ∈ members, m.2.prune (value m) = left (m.1, m.2.own)) :
    (((members.map fun m => (m.1, m.2.prune)).zip
        (members.map fun m => (m.1.name, value m))).filterMap fun p =>
          if p.1.1.inherited then none else some (p.2.1, p.1.2 p.2.2)) =
      (ownMembers members).map fun m => (m.1.name, left m) := by
  induction members with
  | nil => rfl
  | cons m rest ih =>
      have hrest := ih fun p hp => h p (List.mem_cons_of_mem m hp)
      rw [ownMembers, List.map_cons, List.map_cons, List.map_cons, List.zip_cons_cons]
      cases hm : m.1.inherited with
      | true => simpa [hm, ownMembers] using hrest
      | false => simpa [hm, ownMembers, h m List.mem_cons_self] using hrest

theorem prune_tree (style : Style) (h : L.conforms v) :
    L.prune (L.tree style v) = L.own.tree style v := by
  induction L generalizing v with
  | atom a => rw [prune, own_atom]
  | optional inner ih =>
      rw [tree, prune, own_optional, tree]
      cases hnull : v.isNull with
      | true => exact prune_null inner
      | false =>
          have hinner : inner.conforms v := by simpa [hnull] using conforms_optional.mp h
          exact ih hinner
  | sequence element ih =>
      obtain ⟨items, rfl, hitems⟩ := conforms_sequence.mp h
      rw [tree, prune, own_sequence, tree, List.map_map]
      exact congrArg Json.array (List.map_congr_left fun w hw => ih (hitems w hw))
  | map value ih =>
      obtain ⟨entries, rfl, hentries⟩ := conforms_map.mp h
      rw [tree, prune, own_map, tree, List.map_map]
      refine congrArg Json.object (List.map_congr_left fun e he => ?_)
      simp only [Function.comp_apply, ih (hentries e he).2]
  | composite owner members ih =>
      obtain ⟨fields, rfl, hfields⟩ := conforms_composite.mp h
      rw [tree, prune, own_composite, tree]
      refine congrArg Json.object (prune_entries fun m hm => ?_)
      obtain ⟨w, hw, hconforms⟩ := hfields m hm
      rw [View.slot_object hw, ih m hm hconforms]

end Layout

theorem Leaf.tree_congr {style style' : Style} (h : style.dateFormat = style'.dateFormat)
    (leaf : Leaf) (v : View) : leaf.tree style v = leaf.tree style' v := by
  obtain ⟨_, _⟩ := style
  obtain ⟨_, _⟩ := style'
  obtain rfl := h
  rfl

/-- Of the style only the format of dates shows in a tree. -/
theorem Layout.tree_congr {style style' : Style} (h : style.dateFormat = style'.dateFormat)
    (L : Layout) (v : View) : L.tree style v = L.tree style' v := by
  induction L generalizing v with
  | atom a => rw [tree, tree, Leaf.tree_congr h]
  | optional inner ih => rw [tree, tree, ih]
  | sequence element ih => rw [tree.eq_def, tree.eq_def]; simp only [ih]
  | map value ih => rw [tree.eq_def, tree.eq_def]; simp only [ih]
  | composite owner members ih =>
      rw [tree, tree, List.map_congr_left fun m hm => by rw [ih m hm]]

namespace Schema

variable {n : Nat} {S : Schema n}

theorem exists_of_mem_zip_ownMembers {members : List (Member n)} {inner : List (Place × Layout)}
    (hplaces : inner.map Prod.fst = members.map Member.toPlace) {p : Member n × Place × Layout}
    (hp : p ∈ (members.filter fun m => !m.inherited).zip (Layout.ownMembers inner)) :
    ∃ K, (p.1, p.2.1, K) ∈ members.zip inner ∧ K.own = p.2.2 := by
  induction members generalizing inner with
  | nil => simp at hp
  | cons m members ih =>
      obtain ⟨⟨place, L⟩, rest, rfl⟩ := List.exists_cons_of_length_eq_add_one
        (l := inner) (n := members.length) (by simpa using congrArg List.length hplaces)
      simp only [List.map_cons, List.cons.injEq] at hplaces
      obtain ⟨rfl, hrest⟩ := hplaces
      have hlater (hp : p ∈ (members.filter fun m => !m.inherited).zip (Layout.ownMembers rest)) :
          ∃ K, (p.1, p.2.1, K) ∈ (m :: members).zip ((m.toPlace, L) :: rest) ∧ K.own = p.2.2 := by
        obtain ⟨K, hK, hown⟩ := ih hrest hp
        exact ⟨K, List.mem_cons_of_mem _ hK, hown⟩
      rw [Layout.ownMembers, List.map_cons, List.filter_cons, List.filter_cons] at hp
      cases hm : m.inherited with
      | true => exact hlater (by simpa [hm, Member.toPlace, Layout.ownMembers] using hp)
      | false =>
          simp only [hm, Member.toPlace, Bool.not_false, if_true, List.zip_cons_cons] at hp
          rcases List.mem_cons.mp hp with rfl | hp
          · exact ⟨L, by simp [Member.toPlace, hm], rfl⟩
          · exact hlater hp

/-- A shape that unfolds with the inherited members unfolds without them, to what they leave. -/
theorem Unfolds.own {t : Fin n} {L : Layout} (h : S.Unfolds true t L) :
    S.Unfolds false t L.own := by
  induction h with
  | primitive kind =>
      rw [Layout.own_atom]
      exact .primitive kind
  | string kind =>
      rw [Layout.own_atom]
      exact .string kind
  | optional kind _ ih =>
      rw [Layout.own_optional]
      exact .optional kind ih
  | sequence kind _ ih =>
      rw [Layout.own_sequence]
      exact .sequence kind ih
  | map kind text _ ih =>
      rw [Layout.own_map]
      exact .map kind text ih
  | composite kind places _ ih =>
      rw [Layout.own_composite]
      refine .composite kind ?_ fun p hp => ?_
      · rw [Layout.map_fst_ownMembers, places, List.filter_map, Member.order_false]
        rfl
      · rw [Member.order_false] at hp
        obtain ⟨K, hK, hown⟩ := exists_of_mem_zip_ownMembers places hp
        rw [← hown]
        exact ih _ hK

end Schema
end JsonPlan
