import JsonPlan.Proofs.Shape.Order

/-!
What memory order promises. No member is lost or doubled, the order is that of positions and kinds,
and members that these leave undecided stay as they were declared. Leaving the inherited members out
changes nothing for the others, and of what a property reads only the set matters.
-/

namespace JsonPlan

/-- The same data: what a property reads may be listed in any order, and more than once. -/
def Origin.Agrees : Origin → Origin → Prop
  | .field offset, .field offset' => offset = offset'
  | .property reads, .property reads' => ∀ offset, offset ∈ reads ↔ offset ∈ reads'
  | _, _ => False

namespace Member

variable {n : Nat} {a b : Member n}

/-! ## The order -/

/-- `a` stands before `b`, wherever they are declared. -/
inductive Before (a b : Member n) : Prop where
  | lower {x y : Nat} (first : a.position = some x) (second : b.position = some y) (lt : x < y)
  | known {x : Nat} (first : a.position = some x) (second : b.position = none)
  | field (same : a.position = b.position) (first : a.isField = true) (second : b.isField = false)

/-- Nothing but their declarations tells which of two members stands first. -/
def Ties (a b : Member n) : Prop := a.position = b.position ∧ a.isField = b.isField

instance (a b : Member n) : Decidable (a.Ties b) :=
  inferInstanceAs (Decidable (a.position = b.position ∧ a.isField = b.isField))

/-- Positions as the rank compares them. -/
theorem place_injective :
    Function.Injective fun x : Option Nat => x.elim (⊤ : WithTop Nat) WithTop.some := by
  intro x y h
  cases x <;> cases y <;> simp_all

theorem ties_iff : a.Ties b ↔ a.rank = b.rank := by
  rw [rank, rank, toLex_inj, Prod.mk.injEq, place_injective.eq_iff]
  simp [Ties]

theorem before_iff : a.Before b ↔ a.rank < b.rank := by
  rw [rank, rank, Prod.Lex.toLex_lt_toLex]
  constructor
  · intro h
    cases h with
    | lower first second lt => simp [first, second, lt]
    | known first second => simp [first, second]
    | field same first second => simp [same, first, second]
  · rintro (hposition | ⟨hposition, hfield⟩)
    · cases hx : a.position with
      | none => simp [hx] at hposition
      | some x =>
          cases hy : b.position with
          | none => exact .known hx hy
          | some y => exact .lower hx hy (by simpa [hx, hy] using hposition)
    · have hfield' : a.isField = true ∧ b.isField = false := by
        simpa [Bool.lt_iff] using hfield
      exact .field (place_injective hposition) hfield'.1 hfield'.2

theorem precedes_iff_before : a.precedes b ↔ a.Before b ∨ a.Ties b := by
  rw [precedes_iff, le_iff_lt_or_eq, before_iff, ties_iff]

/-! ## Arrangements -/

/-- What is promised about members in memory order. -/
structure Arranged (declared arranged : List (Member n)) : Prop where
  perm : arranged.Perm declared
  sorted : arranged.Pairwise fun a b => a.Before b ∨ a.Ties b
  /-- Members that tie are those that were declared, in the order in which they were. -/
  stable : ∀ a : Member n,
    arranged.filter (fun b => a.Ties b) = declared.filter fun b => a.Ties b

/-- What is in order already stays as it is. -/
theorem sort_of_pairwise {members : List (Member n)}
    (h : members.Pairwise fun a b => a.precedes b) : sort members = members := by
  rw [sort_eq_insertionSort, h.insertionSort_eq]

theorem sort_arranged (members : List (Member n)) : Arranged members (sort members) where
  perm := sort_perm members
  sorted := (pairwise_sort members).imp precedes_iff_before.mp
  stable a := by
    rw [← sort_filter]
    refine sort_of_pairwise (List.pairwise_of_forall_mem_list fun b hb c hc => ?_)
    have htie := ties_iff.mp (of_decide_eq_true (List.mem_filter.mp hb).2)
    have htie' := ties_iff.mp (of_decide_eq_true (List.mem_filter.mp hc).2)
    exact precedes_iff.mpr (htie.symm.trans htie').le

/-! ## Reads -/

/-- The same member, up to how it lists what it reads. -/
def Agrees (a b : Member n) : Prop := a.origin.Agrees b.origin ∧ b = { a with origin := b.origin }

theorem Agrees.refl (m : Member n) : m.Agrees m := by
  refine ⟨?_, rfl⟩
  cases m.origin with
  | field offset => exact Eq.refl offset
  | property reads => exact fun _ => Iff.rfl

theorem position_property {m : Member n} {reads : List Nat} (h : m.origin = .property reads)
    {x : Nat} : m.position = some x ↔ x ∈ reads ∧ ∀ y ∈ reads, x ≤ y := by
  rw [position, h]
  exact List.min?_eq_some_iff

theorem Agrees.rank_eq (h : a.Agrees b) : a.rank = b.rank := by
  obtain ⟨horigin, -⟩ := h
  rw [← ties_iff]
  cases ha : a.origin with
  | field offset =>
      cases hb : b.origin with
      | field offset' =>
          rw [ha, hb] at horigin
          obtain rfl : offset = offset' := horigin
          simp [Ties, position, isField, ha, hb]
      | property reads => simp [ha, hb, Origin.Agrees] at horigin
  | property reads =>
      cases hb : b.origin with
      | field offset => simp [ha, hb, Origin.Agrees] at horigin
      | property reads' =>
          rw [ha, hb] at horigin
          refine ⟨Option.ext fun x => ?_, by simp [isField, ha, hb]⟩
          rw [position_property ha, position_property hb]
          simp only [horigin _]

theorem Agrees.inherited_eq (h : a.Agrees b) : b.inherited = a.inherited := by
  rw [h.2]

/-- Members that are described in two ways are sorted in the same way. -/
theorem sort_agrees {ι : Type} {ids : List ι} {f g : ι → Member n}
    (h : ∀ i ∈ ids, (f i).Agrees (g i)) :
    ∃ arranged : List ι, arranged.Perm ids ∧ sort (ids.map f) = arranged.map f ∧
      sort (ids.map g) = arranged.map g := by
  refine ⟨ids.insertionSort fun i j => (f i).precedes (f j), List.perm_insertionSort _ _, ?_, ?_⟩
  · rw [sort_eq_insertionSort]
    exact (List.map_insertionSort _ _ f ids fun _ _ _ _ => Iff.rfl).symm
  · rw [sort_eq_insertionSort]
    refine (List.map_insertionSort _ _ g ids fun i hi j hj => ?_).symm
    rw [precedes_iff, precedes_iff, (h i hi).rank_eq, (h j hj).rank_eq]

theorem order_agrees {ι : Type} {ids : List ι} {f g : ι → Member n}
    (h : ∀ i ∈ ids, (f i).Agrees (g i)) (includeInherited : Bool) :
    ∃ arranged : List ι,
      arranged.Perm (ids.filter fun i => includeInherited || !(f i).inherited) ∧
      order (ids.map f) includeInherited = arranged.map f ∧
      order (ids.map g) includeInherited = arranged.map g := by
  have hkept : ids.filter (fun i => includeInherited || !(g i).inherited) =
      ids.filter fun i => includeInherited || !(f i).inherited :=
    List.filter_congr fun i hi => by rw [(h i hi).inherited_eq]
  rw [order, order, List.filter_map, List.filter_map]
  simp only [Function.comp_def, hkept]
  exact sort_agrees fun i hi => h i (List.mem_filter.mp hi).1

/-! ## Orders -/

/-- Memory order arranges the members that are written. Those that are not inherited are arranged
alone as they are among all, and members that are described in two ways by the same names are
arranged by them alike. -/
theorem order_arranges (members : List (Member n)) :
    (∀ includeInherited, Arranged (members.filter fun m => includeInherited || !m.inherited)
      (order members includeInherited)) ∧
    order members false = (order members true).filter (fun m => !m.inherited) ∧
    ∀ {ι : Type} (ids : List ι) (f g : ι → Member n), ids.map f = members →
      (∀ i ∈ ids, (f i).Agrees (g i)) → ∀ includeInherited, ∃ arranged : List ι,
        arranged.Perm (ids.filter fun i => includeInherited || !(f i).inherited) ∧
        order members includeInherited = arranged.map f ∧
        order (ids.map g) includeInherited = arranged.map g := by
  refine ⟨fun includeInherited => sort_arranged _, order_false members, ?_⟩
  rintro ι ids f g rfl h includeInherited
  exact order_agrees h includeInherited

/-- Fields and properties, one of them inherited and one that nobody knows the place of. -/
def scattered (reads : List Nat) : List (Member 1) :=
  [⟨"unknown", .property [], false, 0, 0⟩, ⟨"derived", .property reads, false, 0, 1⟩,
    ⟨"late", .field 16, false, 0, 2⟩, ⟨"early", .field 8, false, 0, 3⟩,
    ⟨"base", .field 0, true, 0, 4⟩]

theorem order_arranges_scattered :
    (order (scattered [16, 8]) true).map name = ["base", "early", "derived", "late", "unknown"] ∧
      (order (scattered [8, 16, 8]) true).map name =
        ["base", "early", "derived", "late", "unknown"] ∧
      (order (scattered [8, 16, 8]) false).map name = ["early", "derived", "late", "unknown"] := by
  have hnames : (order (scattered [16, 8]) true).map name =
      ["base", "early", "derived", "late", "unknown"] := by decide
  have hagrees : ∀ p ∈ (scattered [16, 8]).zip (scattered [8, 16, 8]), p.1.Agrees p.2 := by
    simp only [scattered, List.zip_cons_cons, List.zip_nil_right, List.forall_mem_cons]
    exact ⟨.refl _, ⟨fun offset => by simp [or_comm], rfl⟩, .refl _, .refl _, .refl _, by simp⟩
  obtain ⟨-, -, hdescribed⟩ := order_arranges (scattered [16, 8])
  obtain ⟨-, hfilter, -⟩ := order_arranges (scattered [8, 16, 8])
  obtain ⟨arranged, hperm, hfirst, hsecond⟩ := hdescribed
    ((scattered [16, 8]).zip (scattered [8, 16, 8])) Prod.fst Prod.snd rfl hagrees true
  have hsame : ∀ p ∈ arranged, p.2.name = p.1.name := by
    intro p hp
    have hmem := (List.mem_filter.mp (hperm.mem_iff.mp hp)).1
    rw [(hagrees p hmem).2]
  have hboth : (order (scattered [8, 16, 8]) true).map name =
      (order (scattered [16, 8]) true).map name := by
    rw [hfirst]
    change (order (((scattered [16, 8]).zip (scattered [8, 16, 8])).map Prod.snd) true).map name = _
    rw [hsecond, List.map_map, List.map_map]
    exact List.map_congr_left hsame
  refine ⟨hnames, hboth.trans hnames, ?_⟩
  rw [hfilter]
  decide

end Member
end JsonPlan
