import JsonPlan.Shape.Defect

/-!
The walks from a shape and the graph that they go through: a shape from which every walk ends well
is one from which the graph has neither a cycle nor anything without a program.
-/

namespace JsonPlan.Schema

variable {n : Nat} {S : Schema n} {includeInherited : Bool}

theorem Reaches.head {t u v : Fin n} (h : u ∈ S.parts includeInherited t)
    (huv : S.Reaches includeInherited u v) : S.Reaches includeInherited t v := by
  induction huv with
  | here => exact .part .here h
  | part _ hv ih => exact .part ih hv

/-! ## Walks -/

theorem walk_append (path : List (Fin n)) (t : Fin n) (turns more : List Nat) :
    S.walk includeInherited path t (turns ++ more) =
      (S.walk includeInherited path t turns).bind fun reached =>
        S.walk includeInherited reached.1 reached.2 more := by
  induction turns generalizing path t with
  | nil => rfl
  | cons turn turns ih =>
      rw [List.cons_append, walk, walk]
      cases (S.parts includeInherited t)[turn]? with
      | none => rfl
      | some u => exact ih (t :: path) u

theorem defectAt_cons (path : List (Fin n)) {t u : Fin n} {turn : Nat} (turns : List Nat)
    (h : (S.parts includeInherited t)[turn]? = some u) :
    S.defectAt includeInherited path t (turn :: turns) =
      S.defectAt includeInherited (t :: path) u turns := by
  rw [defectAt, walk, h]
  rfl

theorem defectAt_cons_none (path : List (Fin n)) {t : Fin n} {turn : Nat} (turns : List Nat)
    (h : (S.parts includeInherited t)[turn]? = none) :
    S.defectAt includeInherited path t (turn :: turns) = none := by
  rw [defectAt, walk, h]
  rfl

/-- There is a walk to whatever the graph reaches. It keeps what was walked before. -/
theorem Reaches.exists_walk {t u : Fin n} (h : S.Reaches includeInherited t u)
    (path : List (Fin n)) :
    ∃ turns passed, S.walk includeInherited path t turns = some (passed, u) ∧ path ⊆ passed := by
  induction h with
  | here => exact ⟨[], path, rfl, List.Subset.refl _⟩
  | @part u v _ hv ih =>
      obtain ⟨turns, passed, hwalk, hsubset⟩ := ih
      obtain ⟨turn, hturn⟩ := List.mem_iff_getElem?.mp hv
      refine ⟨turns ++ [turn], u :: passed, ?_, List.subset_cons_of_subset u hsubset⟩
      simp [walk_append, hwalk, walk, hturn]

/-- A walk goes along edges: it ends where the graph reaches, and passed nothing from which the
graph does not lead on to its end. -/
theorem reaches_of_walk {path passed : List (Fin n)} {t u : Fin n} {turns : List Nat}
    (h : S.walk includeInherited path t turns = some (passed, u)) :
    S.Reaches includeInherited t u ∧ ∀ w ∈ passed, w ∈ path ∨
      (S.Reaches includeInherited t w ∧
        ∃ v ∈ S.parts includeInherited w, S.Reaches includeInherited v u) := by
  induction turns generalizing path t with
  | nil =>
      obtain ⟨rfl, rfl⟩ := Prod.mk.inj (Option.some.inj h)
      exact ⟨.here, fun w hw => .inl hw⟩
  | cons turn turns ih =>
      rw [walk] at h
      obtain ⟨v, hv, hwalk⟩ := Option.bind_eq_some_iff.mp h
      have hmem := List.mem_of_getElem? hv
      obtain ⟨hreaches, hpassed⟩ := ih hwalk
      refine ⟨hreaches.head hmem, fun w hw => ?_⟩
      rcases hpassed w hw with hpath | ⟨hw', hlead⟩
      · rcases List.mem_cons.mp hpath with rfl | hpath
        · exact .inr ⟨.here, v, hmem, hreaches⟩
        · exact .inl hpath
      · exact .inr ⟨hw'.head hmem, hlead⟩

/-! ## Graphs without defects -/

theorem defect?_of_mem {path : List (Fin n)} {t : Fin n} (h : t ∈ path) :
    S.defect? path t = some (.recursiveShape (S t).name) := by
  rw [defect?, if_pos (List.contains_iff_mem.mpr h)]

theorem defect?_eq_none {path : List (Fin n)} {t : Fin n} :
    S.defect? path t = none ↔
      t ∉ path ∧ (S t).kind ≠ .unencodable ∧
        ∀ key value, (S t).kind = .map key value → (S key).kind = .string := by
  rw [defect?]
  by_cases hpath : t ∈ path
  · simp [hpath]
  · cases hk : (S t).kind <;> simp [hpath]

theorem defectAt_eq_none_iff {t : Fin n} :
    (∀ turns, S.defectAt includeInherited [] t turns = none) ↔
      S.Compilable includeInherited t := by
  constructor
  · intro h
    have hreached : ∀ u, S.Reaches includeInherited t u → ∀ turns passed,
        S.walk includeInherited [] t turns = some (passed, u) → S.defect? passed u = none := by
      intro u _ turns passed hwalk
      simpa [defectAt, hwalk] using h turns
    refine ⟨fun {u v} hu hv hback => ?_, fun {u} hu => ?_, fun {u key value} hu => ?_⟩
    · -- The walk that follows the cycle comes back to a shape that it has passed.
      obtain ⟨turns, passed, hwalk, -⟩ := hu.exists_walk []
      obtain ⟨turn, hturn⟩ := List.mem_iff_getElem?.mp hv
      obtain ⟨cycle, passed', hcycle, hsubset⟩ := hback.exists_walk (u :: passed)
      have hround : S.walk includeInherited [] t (turns ++ turn :: cycle) = some (passed', u) := by
        simp [walk_append, hwalk, walk, hturn, hcycle]
      have hnone := hreached u hu _ _ hround
      rw [defect?_of_mem (hsubset List.mem_cons_self)] at hnone
      cases hnone
    · obtain ⟨turns, passed, hwalk, -⟩ := hu.exists_walk []
      exact (defect?_eq_none.mp (hreached u hu turns passed hwalk)).2.1
    · obtain ⟨turns, passed, hwalk, -⟩ := hu.exists_walk []
      exact (defect?_eq_none.mp (hreached u hu turns passed hwalk)).2.2 key value
  · intro h turns
    rw [defectAt]
    cases hwalk : S.walk includeInherited [] t turns with
    | none => rfl
    | some reached =>
        obtain ⟨hu, hpassed⟩ := reaches_of_walk hwalk
        refine defect?_eq_none.mpr ⟨fun hmem => ?_, h.encodable hu, fun key value => h.textKeys hu⟩
        rcases hpassed _ hmem with hnil | ⟨_, v, hv, hback⟩
        · cases hnil
        · exact h.acyclic hu hv hback

theorem Compilable.not_faulty {t u : Fin n} (h : S.Compilable includeInherited t)
    (hu : S.Reaches includeInherited t u) (e : Error) : ¬ S.Faulty includeInherited u e := by
  rintro (⟨hv, hback⟩ | hkind | ⟨hkind, hkey⟩)
  · exact h.acyclic hu hv hback
  · exact h.encodable hu hkind
  · exact hkey (h.textKeys hu hkind)

/-- What is wrong at the end of a walk from `t` is wrong with a shape that `t` is built from. -/
theorem exists_faulty_of_defectAt {t : Fin n} {turns : List Nat} {e : Error}
    (h : S.defectAt includeInherited [] t turns = some e) :
    ∃ u, S.Reaches includeInherited t u ∧ S.Faulty includeInherited u e := by
  obtain ⟨⟨passed, u⟩, hwalk, hu⟩ := Option.bind_eq_some_iff.mp h
  obtain ⟨hreaches, hpassed⟩ := reaches_of_walk hwalk
  refine ⟨u, hreaches, ?_⟩
  rw [defect?] at hu
  split at hu
  · rename_i hmem
    obtain rfl := Option.some.inj hu
    -- The walk passed the shape before, so that the graph leads back to it.
    rcases hpassed u (List.contains_iff_mem.mp hmem) with hnil | ⟨-, v, hv, hback⟩
    · cases hnil
    · exact .recursive hv hback
  · split at hu
    · rename_i hkind
      obtain rfl := Option.some.inj hu
      exact .unencodable hkind
    · rename_i key value hkind
      split at hu
      · cases hu
      · rename_i hkey
        obtain rfl := Option.some.inj hu
        exact .nonTextKeys hkind hkey
    · cases hu

/-- A shape is recursive only if it lies on a cycle, however often it is used. -/
theorem FirstDefect.cycle {t : Fin n} {name : String}
    (h : S.FirstDefect includeInherited [] t (.recursiveShape name)) :
    ∃ u v, S.Reaches includeInherited t u ∧ v ∈ S.parts includeInherited u ∧
      S.Reaches includeInherited v u ∧ (S u).name = name := by
  obtain ⟨turns, hdefect, -⟩ := h
  obtain ⟨u, hreaches, hfaulty⟩ := exists_faulty_of_defectAt hdefect
  cases hfaulty with
  | recursive hv hback => exact ⟨u, _, hreaches, hv, hback, rfl⟩

/-! ## The first of the defects -/

theorem firstDefect_of_defect? {path : List (Fin n)} {t : Fin n} {d e : Error}
    (h : S.defect? path t = some d) : S.FirstDefect includeInherited path t e ↔ d = e := by
  have hhere : S.defectAt includeInherited path t [] = some d := h
  constructor
  · rintro ⟨turns, hdefect, hfirst⟩
    cases turns with
    | nil => exact Option.some.inj (hhere.symm.trans hdefect)
    | cons turn turns =>
        have hnone := hfirst [] (List.nil_lt_cons turn turns)
        rw [hhere] at hnone
        cases hnone
  · rintro rfl
    exact ⟨[], hhere, fun earlier hlt => absurd hlt (List.not_lt_nil earlier)⟩

/-- Where nothing is wrong with the shape itself, the first defect is that of the first part that
has one. -/
theorem firstDefect_of_parts {path : List (Fin n)} {t : Fin n} {e : Error}
    (h : S.defect? path t = none) :
    S.FirstDefect includeInherited path t e ↔
      ∃ before u after, S.parts includeInherited t = before ++ u :: after ∧
        S.FirstDefect includeInherited (t :: path) u e ∧
        ∀ w ∈ before, ∀ turns, S.defectAt includeInherited (t :: path) w turns = none := by
  have hhere : S.defectAt includeInherited path t [] = none := h
  constructor
  · rintro ⟨turns, hdefect, hfirst⟩
    cases turns with
    | nil => rw [hhere] at hdefect; cases hdefect
    | cons turn turns =>
        cases hu : (S.parts includeInherited t)[turn]? with
        | none => rw [defectAt_cons_none path turns hu] at hdefect; cases hdefect
        | some u =>
            obtain ⟨hlt, hget⟩ := List.getElem?_eq_some_iff.mp hu
            refine ⟨(S.parts includeInherited t).take turn, u,
              (S.parts includeInherited t).drop (turn + 1), ?_, ⟨turns, ?_, ?_⟩, ?_⟩
            · rw [← hget, List.getElem_cons_drop, List.take_append_drop]
            · rw [← defectAt_cons path turns hu, hdefect]
            · intro earlier hearlier
              rw [← defectAt_cons path earlier hu]
              exact hfirst _ (List.cons_lt_cons_iff.mpr (.inr ⟨rfl, hearlier⟩))
            · intro w hw more
              obtain ⟨left, hleft, hw⟩ := List.mem_take_iff_getElem.mp hw
              have hw' : (S.parts includeInherited t)[left]? = some w := by
                rw [← hw]
                exact List.getElem?_eq_getElem _
              rw [← defectAt_cons path more hw']
              exact hfirst _ (List.cons_lt_cons_iff.mpr (.inl (by omega)))
  · rintro ⟨before, u, after, hparts, ⟨turns, hdefect, hfirst⟩, hbefore⟩
    have hu : (S.parts includeInherited t)[before.length]? = some u := by simp [hparts]
    refine ⟨before.length :: turns, by rw [defectAt_cons path turns hu, hdefect], ?_⟩
    intro earlier hlt
    cases earlier with
    | nil => exact hhere
    | cons turn more =>
        rcases List.cons_lt_cons_iff.mp hlt with hleft | ⟨rfl, hmore⟩
        · have hw : (S.parts includeInherited t)[turn]? = some before[turn] := by
            rw [hparts, List.getElem?_append_left hleft, List.getElem?_eq_getElem hleft]
          rw [defectAt_cons path more hw]
          exact hbefore _ (List.getElem_mem hleft) more
        · rw [defectAt_cons path more hu]
          exact hfirst more hmore

theorem defectAt_eq_none_of_parts {path : List (Fin n)} {t : Fin n}
    (h : S.defect? path t = none) :
    (∀ turns, S.defectAt includeInherited path t turns = none) ↔
      ∀ u ∈ S.parts includeInherited t, ∀ turns,
        S.defectAt includeInherited (t :: path) u turns = none := by
  constructor
  · intro hall u hu turns
    obtain ⟨turn, hturn⟩ := List.mem_iff_getElem?.mp hu
    rw [← defectAt_cons path turns hturn, hall]
  · intro hparts turns
    cases turns with
    | nil => exact h
    | cons turn turns =>
        cases hu : (S.parts includeInherited t)[turn]? with
        | none => exact defectAt_cons_none path turns hu
        | some u =>
            rw [defectAt_cons path turns hu]
            exact hparts u (List.mem_of_getElem? hu) turns

end JsonPlan.Schema
