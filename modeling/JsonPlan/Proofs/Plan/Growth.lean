import JsonPlan.Plan.Contents
import JsonPlan.Proofs.Plan.Compile
import JsonPlan.Proofs.Shape.Defect

/-!
How compilation lets a cache grow. Entries stay as they were made, every new one is for a shape that
the requested one is built from, and a shape gets its entry after the shapes that its own program is
built from, also when the request fails in the end.
-/

namespace JsonPlan

variable {n : Nat} {α β : Type} {S : Schema n}

/-! ## Entries -/

namespace PlanCache

variable {c : PlanCache n} {j k : PlanKey n}

theorem kept?_cons (e : PlanKey n × Program) (older : List (PlanKey n × Program)) :
    kept? ⟨e :: older⟩ k =
      if e.1 = k then some (older.length, e.2) else kept? ⟨older⟩ k := by
  by_cases h : e.1 = k <;> simp [kept?, h]

theorem map_snd_kept? (c : PlanCache n) (k : PlanKey n) :
    (c.kept? k).map Prod.snd = c.get? k := by
  rcases c with ⟨entries⟩
  induction entries with
  | nil => rfl
  | cons e older ih =>
      rw [get?, List.lookup_cons, kept?_cons]
      by_cases h : e.1 = k
      · simp [h]
      · have hkey : (k == e.1) = false := by simpa using Ne.symm h
        rw [if_neg h, hkey, ih, get?]

theorem get?_of_kept? {i : Nat} {p : Program} (h : c.kept? k = some (i, p)) :
    c.get? k = some p := by
  rw [← map_snd_kept?, h]
  rfl

theorem exists_kept?_of_get? {p : Program} (h : c.get? k = some p) :
    ∃ i, c.kept? k = some (i, p) := by
  rw [← map_snd_kept?, Option.map_eq_some_iff] at h
  obtain ⟨⟨i, q⟩, hentry, rfl⟩ := h
  exact ⟨i, hentry⟩

/-- An entry's number is its place among the entries, the oldest one first. -/
theorem getElem?_of_kept? {i : Nat} {p : Program} (h : c.kept? k = some (i, p)) :
    c.entries.reverse[i]? = some (k, p) := by
  rcases c with ⟨entries⟩
  induction entries with
  | nil => cases h
  | cons e older ih =>
      rw [kept?_cons] at h
      rw [List.reverse_cons]
      split at h
      · rename_i hkey
        obtain ⟨rfl, rfl⟩ := Prod.mk.inj (Option.some.inj h)
        rw [← hkey, List.getElem?_append_right (by simp)]
        simp
      · have hget := ih h
        rw [List.getElem?_append_left (List.getElem?_eq_some_iff.mp hget).1, hget]

theorem key_eq_of_kept? {i : Nat} {p q : Program} (hj : c.kept? j = some (i, p))
    (hk : c.kept? k = some (i, q)) : j = k := by
  have h := (getElem?_of_kept? hj).symm.trans (getElem?_of_kept? hk)
  exact congrArg Prod.fst (Option.some.inj h)

theorem install_of_get? {p q : Program} (h : c.get? k = some q) : c.install k p = c := by
  rw [install, h]

theorem kept?_install (h : c.get? k = none) (p : Program) (j : PlanKey n) :
    (c.install k p).kept? j = if k = j then some (c.size, p) else c.kept? j := by
  rw [install, h, kept?_cons]
  rfl

/-! ## Growth -/

variable (S) in
/-- From `c` to `c'`, nothing was added but entries that the program of `k` is built from. -/
structure Grows (k : PlanKey n) (c c' : PlanCache n) : Prop where
  lasting {j : PlanKey n} {entry : Nat × Program} :
    c.kept? j = some entry → c'.kept? j = some entry
  added {j : PlanKey n} : c'.Holds j → c.Holds j ∨
    (j.includeInherited = k.includeInherited ∧ S.Reaches k.includeInherited k.shape j.shape)
  closed : c.Closed S → c'.Closed S

namespace Grows

variable {c' c'' : PlanCache n}

theorem refl (k : PlanKey n) (c : PlanCache n) : c.Grows S k c :=
  ⟨id, .inl, id⟩

theorem trans (h : c.Grows S k c') (h' : c'.Grows S k c'') : c.Grows S k c'' where
  lasting hentry := h'.lasting (h.lasting hentry)
  added hheld := (h'.added hheld).elim h.added .inr
  closed hclosed := h'.closed (h.closed hclosed)

/-- What a part is built from, the whole is built from. -/
theorem part {includeInherited : Bool} {t u : Fin n} (h : c.Grows S ⟨u, includeInherited⟩ c')
    (hu : u ∈ S.parts includeInherited t) : c.Grows S ⟨t, includeInherited⟩ c' where
  lasting := h.lasting
  added hheld := (h.added hheld).imp_right fun ⟨hflag, hreaches⟩ => ⟨hflag, hreaches.head hu⟩
  closed := h.closed

theorem get? (h : c.Grows S k c') {p : Program} (hp : c.get? j = some p) :
    c'.get? j = some p := by
  obtain ⟨i, hentry⟩ := exists_kept?_of_get? hp
  exact get?_of_kept? (h.lasting hentry)

theorem holds (h : c.Grows S k c') (hj : c.Holds j) : c'.Holds j :=
  hj.imp fun _ hp => h.get? hp

end Grows

theorem holds_install (c : PlanCache n) (k : PlanKey n) (p : Program) :
    (c.install k p).Holds k := by
  cases h : c.get? k with
  | some q => exact ⟨q, by rwa [install_of_get? h]⟩
  | none => exact ⟨p, by rw [get?_install h, if_pos rfl]⟩

/-- A shape may get its entry once the shapes that its program is built from have theirs. -/
theorem grows_install (h : ∀ u ∈ S.parts k.includeInherited k.shape, c.Holds ⟨u, k.includeInherited⟩)
    (p : Program) : c.Grows S k (c.install k p) := by
  cases hk : c.get? k with
  | some q =>
      rw [install_of_get? hk]
      exact .refl k c
  | none =>
      have hkeep : ∀ {j q}, c.get? j = some q → k ≠ j := by
        rintro j q hq rfl
        cases hk.symm.trans hq
      have hholds : ∀ {j}, c.Holds j → (c.install k p).Holds j := fun ⟨q, hq⟩ =>
        ⟨q, by rw [get?_install hk, if_neg (hkeep hq).symm, hq]⟩
      have hnew : ∀ {j}, (c.install k p).Holds j → c.Holds j ∨ j = k := by
        rintro j ⟨q, hq⟩
        rw [get?_install hk] at hq
        split at hq
        · exact .inr ‹_›
        · exact .inl ⟨q, hq⟩
      refine ⟨fun {j entry} hentry => ?_, fun {j} hj => ?_, fun hclosed j hj u hu => ?_⟩
      · rw [kept?_install hk, if_neg (hkeep (get?_of_kept? (i := entry.1) (p := entry.2) hentry)),
          hentry]
      · rcases hnew hj with hj | rfl
        · exact .inl hj
        · exact .inr ⟨rfl, .here⟩
      · rcases hnew hj with hj | rfl
        · exact hholds (hclosed j hj u hu)
        · exact hholds (h u hu)

end PlanCache

/-! ## Computations -/

/-- Run on `c`, the computation lets the cache grow towards `k`, and gives a result only if the
shapes `us` are then held. -/
structure PlanM.Builds (S : Schema n) (k : PlanKey n) (us : List (Fin n)) (m : PlanM n α)
    (c : PlanCache n) : Prop where
  grows : c.Grows S k (m.run.run c).2
  holds {a : α} : (m.run.run c).1 = .ok a →
    ∀ u ∈ us, (m.run.run c).2.Holds ⟨u, k.includeInherited⟩

namespace PlanM.Builds

variable {k : PlanKey n} {us vs : List (Fin n)} {c : PlanCache n}

theorem pure (a : α) : Builds S k [] (Pure.pure a : PlanM n α) c :=
  ⟨.refl k c, fun _ _ hu => absurd hu List.not_mem_nil⟩

theorem throw (e : Error) : Builds S k us (throw e : PlanM n α) c :=
  ⟨.refl k c, fun h => by cases h⟩

theorem lift (r : Except Error α) : Builds S k [] (liftM r : PlanM n α) c := by
  cases r with
  | error e => exact throw e
  | ok a => exact pure a

theorem bind {m : PlanM n α} {f : α → PlanM n β} (hm : Builds S k us m c)
    (hf : ∀ a c', (∀ u ∈ us, c'.Holds ⟨u, k.includeInherited⟩) → Builds S k vs (f a) c') :
    Builds S k (us ++ vs) (m >>= f) c := by
  obtain ⟨hgrows, hheld⟩ := hm
  -- What a failing computation has added stays, so both outcomes grow the cache.
  rcases hrun : m.run.run c with ⟨error | a, c'⟩
  · have hbind : (m >>= f).run.run c = (.error error, c') := by rw [run_bind, hrun]
    rw [hrun] at hgrows
    exact ⟨hbind ▸ hgrows, fun h => by rw [hbind] at h; cases h⟩
  · have hbind : (m >>= f).run.run c = (f a).run.run c' := by rw [run_bind, hrun]
    rw [hrun] at hgrows hheld
    obtain ⟨hgrows', hheld'⟩ := hf a c' (hheld rfl)
    refine ⟨hbind ▸ hgrows.trans hgrows', fun {b} hb u hu => ?_⟩
    rw [hbind] at hb ⊢
    rcases List.mem_append.mp hu with hu | hu
    · exact hgrows'.holds (hheld rfl u hu)
    · exact hheld' hb u hu

theorem part {includeInherited : Bool} {t u : Fin n} {m : PlanM n α}
    (hm : Builds S ⟨u, includeInherited⟩ us m c) (hu : u ∈ S.parts includeInherited t) :
    Builds S ⟨t, includeInherited⟩ us m c :=
  ⟨hm.grows.part hu, hm.holds⟩

/-- A computation on the result keeps the cache. -/
theorem map {m : PlanM n α} (hm : Builds S k us m c) (f : α → β) :
    Builds S k us (do return f (← m)) c := by
  simpa using hm.bind fun a c' _ => pure (f a)

end PlanM.Builds

namespace Schema

variable {includeInherited : Bool}

theorem addMembers_builds {k : PlanKey n} {child : Fin n → PlanM n Program}
    {members : List (Member n)}
    (hchild : ∀ u ∈ (members.map (·.shape)).filter fun u => !(S u).kind.isStringLike,
      ∀ c, PlanM.Builds S k [u] (child u) c)
    (owner : String) (b : Builder) (first quoteOpen : Bool) (c : PlanCache n) :
    PlanM.Builds S k ((members.map (·.shape)).filter fun u => !(S u).kind.isStringLike)
      (S.addMembers child owner b first quoteOpen members) c := by
  induction members generalizing b first quoteOpen c with
  | nil => exact .pure _
  | cons m rest ih =>
      rw [addMembers]
      rw [List.map_cons] at hchild ⊢
      cases hkind : (S m.shape).kind.isStringLike with
      | true =>
          -- A member between quotes is compiled without a look at the cache.
          rw [List.filter_cons_of_neg (by simp [hkind])] at hchild ⊢
          rw [if_pos rfl]
          exact (PlanM.Builds.lift _).bind fun _ c' _ => ih hchild _ _ _ c'
      | false =>
          rw [List.filter_cons_of_pos (by simp [hkind])] at hchild ⊢
          rw [if_neg Bool.false_ne_true]
          exact (hchild m.shape List.mem_cons_self c).bind fun _ c' _ =>
            ih (fun u hu => hchild u (List.mem_cons_of_mem _ hu)) _ _ _ c'

theorem assemble_builds {k : PlanKey n} {child : Fin n → PlanM n Program} {t : Fin n}
    (hchild : ∀ u ∈ S.parts includeInherited t, ∀ c, PlanM.Builds S k [u] (child u) c)
    (c : PlanCache n) :
    PlanM.Builds S k (S.parts includeInherited t) (S.assemble includeInherited child (S t)) c := by
  rw [parts] at hchild ⊢
  rw [assemble]
  cases hk : (S t).kind with
  | primitive p => exact .pure _
  | string => exact .pure _
  | optional u => exact (hchild u (by simp [hk]) c).map _
  | sequence u => exact (hchild u (by simp [hk]) c).map _
  | map key u =>
      cases hkey : (S key).kind with
      | string =>
          simp only [hkey]
          exact (hchild u (by simp [hk]) c).map _
      | _ =>
          simp only [hkey]
          exact .throw _
  | composite owner members =>
      simp only [hk] at hchild
      exact addMembers_builds hchild owner _ _ _ c
  | unencodable => exact .throw _

/-- A program is kept once the shapes that it is built from are. -/
theorem freeze_builds {t : Fin n} {c : PlanCache n}
    (h : ∀ u ∈ S.parts includeInherited t, c.Holds ⟨u, includeInherited⟩) (b : Builder) :
    PlanM.Builds S ⟨t, includeInherited⟩ [t]
      (do
        let p ← b.freeze
        modify fun c => c.install ⟨t, includeInherited⟩ p
        pure p) c := by
  cases b.freeze with
  | error e => exact .throw e
  | ok p =>
      refine ⟨PlanCache.grows_install h p, fun _ u hu => ?_⟩
      rw [List.mem_singleton.mp hu]
      exact c.holds_install _ p

/-- However compilation ends, on the way it only added what the shape is built from, and it gives a
program only if this program is kept. -/
theorem compile_builds (path : List (Fin n)) (t : Fin n) (c : PlanCache n) :
    PlanM.Builds S ⟨t, includeInherited⟩ [t] (S.compile includeInherited path t) c := by
  cases hget : c.get? ⟨t, includeInherited⟩ with
  | some p =>
      have hrun : (S.compile includeInherited path t).run.run c = (.ok p, c) :=
        run_compile_kept hget
      refine ⟨hrun ▸ .refl _ c, fun _ u hu => ?_⟩
      rw [hrun, List.mem_singleton.mp hu]
      exact ⟨p, hget⟩
  | none =>
      by_cases hmem : t ∈ path
      · have hrun := run_compile_recursive (S := S) hget hmem
        exact ⟨hrun ▸ .refl _ c, fun h => by rw [hrun] at h; cases h⟩
      · have hassemble := assemble_builds (k := ⟨t, includeInherited⟩) (fun u hu c =>
          (compile_builds (t :: path) u c).part hu) c
        have hbuilds := hassemble.bind fun b c' hheld => freeze_builds hheld b
        have hrun := run_compile_fresh (S := S) hget hmem
        refine ⟨hrun ▸ hbuilds.grows, fun {p} hp u hu => ?_⟩
        rw [hrun] at hp ⊢
        exact hbuilds.holds hp u (List.mem_append_right _ hu)
termination_by offPath path
decreasing_by exact offPath_cons_lt hmem

theorem plan_grows (c : PlanCache n) (k : PlanKey n) :
    c.Grows S k (S.plan c k.shape k.includeInherited).2 :=
  (compile_builds [] k.shape c).grows

/-- A request that succeeds leaves a program under its key. -/
theorem holds_plan {c : PlanCache n} {k : PlanKey n} {p : Program}
    (h : (S.plan c k.shape k.includeInherited).1 = .ok p) :
    (S.plan c k.shape k.includeInherited).2.Holds k :=
  (compile_builds [] k.shape c).holds h k.shape (List.mem_singleton_self _)

/-! ## Sequences of requests -/

theorem kept?_serve {c : PlanCache n} {k : PlanKey n} {entry : Nat × Program}
    (h : c.kept? k = some entry) (ks : List (PlanKey n)) :
    (S.serve c ks).2.kept? k = some entry := by
  induction ks generalizing c with
  | nil => exact h
  | cons j rest ih => exact ih ((plan_grows c j).lasting h)

theorem closed_serve {c : PlanCache n} (h : c.Closed S) (ks : List (PlanKey n)) :
    (S.serve c ks).2.Closed S := by
  induction ks generalizing c with
  | nil => exact h
  | cons j rest ih => exact ih ((plan_grows c j).closed h)

end Schema
end JsonPlan
