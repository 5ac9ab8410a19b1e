import JsonPlan.Plan.History
import JsonPlan.Proofs.Layout.Actions
import JsonPlan.Proofs.Layout.Unfolding

/-!
Compilation gives each shape the program of its layout, and each defect the error of the first one
in depth-first order, whatever the cache has kept from earlier requests.
-/

namespace JsonPlan

variable {n : Nat} {α β : Type}

/-! ## Computations over a cache -/

/-- From every cache in `I` the computation gives `r`, and leaves a cache in `I` behind. -/
def PlanM.Computes (I : PlanCache n → Prop) (m : PlanM n α) (r : Except Error α) : Prop :=
  ∀ c, I c → (m.run.run c).1 = r ∧ I (m.run.run c).2

namespace PlanM.Computes

variable {I : PlanCache n → Prop}

theorem pure (a : α) : Computes I (Pure.pure a : PlanM n α) (.ok a) :=
  fun _ hc => ⟨rfl, hc⟩

theorem throw (e : Error) : Computes I (throw e : PlanM n α) (.error e) :=
  fun _ hc => ⟨rfl, hc⟩

theorem lift (r : Except Error α) : Computes I (liftM r : PlanM n α) r := by
  cases r with
  | error e => exact throw e
  | ok a => exact pure a

theorem bind {m : PlanM n α} {r : Except Error α} {f : α → PlanM n β} {g : α → Except Error β}
    (hm : Computes I m r) (hf : ∀ a, r = .ok a → Computes I (f a) (g a)) :
    Computes I (m >>= f) (r >>= g) := by
  intro c hc
  obtain ⟨hr, hI⟩ := hm c hc
  rw [run_bind]
  rcases hrun : m.run.run c with ⟨error | a, c'⟩
  · rw [hrun] at hr hI
    subst r
    exact ⟨rfl, hI⟩
  · rw [hrun] at hr hI
    subst r
    exact hf a rfl c' hI

end PlanM.Computes

/-! ## Sound caches -/

namespace PlanCache

/-- Every program that is kept is that of its shape's layout. -/
def Sound (S : Schema n) (c : PlanCache n) : Prop :=
  ∀ k p, c.get? k = some p →
    ∃ L, S.Unfolds k.includeInherited k.shape L ∧ p = L.program

theorem sound_empty (S : Schema n) : (empty : PlanCache n).Sound S := by
  intro k p h
  simp [empty, get?] at h

theorem get?_install {c : PlanCache n} {k : PlanKey n} (h : c.get? k = none) (p : Program)
    (j : PlanKey n) : (c.install k p).get? j = if j = k then some p else c.get? j := by
  rw [install, h]
  simp only [get?, List.lookup_cons]
  by_cases hj : j = k
  · simp [hj]
  · have hkey : (j == k) = false := by simpa using hj
    simp [hj, hkey]

theorem Sound.install {S : Schema n} {c : PlanCache n} (hc : c.Sound S) {k : PlanKey n}
    {L : Layout} (hL : S.Unfolds k.includeInherited k.shape L) :
    (c.install k L.program).Sound S := by
  intro j p hp
  cases hk : c.get? k with
  | some q =>
      rw [PlanCache.install, hk] at hp
      exact hc j p hp
  | none =>
      rw [get?_install hk] at hp
      split at hp
      · rename_i hj
        simp only [Option.some.injEq] at hp
        exact ⟨L, hj ▸ hL, hp.symm⟩
      · exact hc j p hp

end PlanCache

/-! ## Members -/

namespace Builder

theorem eq_of_actions_eq {b : Builder} {as : List Action} (h : b.actions = as) :
    b = ⟨as.reverse⟩ := by
  rw [← h, actions, List.reverse_reverse]

/-- What a literal makes of the actions so far: it joins `pending`, if that is not empty. -/
def Joins (b : Builder) (base : List Action) (pending : String) : Prop :=
  ∀ text, text ≠ "" → (b.literal text).actions = base ++ [.literal (pending ++ text)]

theorem joins_of_not_endsInLiteral {b : Builder} (h : b.endsInLiteral = false) :
    b.Joins b.actions "" := by
  intro text ht
  rw [actions_literal ht h, String.empty_append]

theorem joins_literal (text : String) (ht : text ≠ "") :
    (empty.literal text).Joins [] text := by
  intro more _
  exact actions_literal_literal ht rfl

theorem actions_member {b : Builder} {base : List Action} {pending lead owner : String}
    {m : Member n} {body : List Action} (hb : b.Joins base pending) (hlead : lead ≠ "")
    (hbody : Fused body) :
    (b.member owner m lead body).actions =
      base ++ .literal (pending ++ lead) :: .enter (.member (m.ref owner)) ::
        (body ++ [.leave .member]) := by
  rw [member, actions_push rfl, actions_pushAll hbody (.inl (endsInLiteral_push rfl)),
    actions_push rfl, hb lead hlead]
  simp

/-- A member and the parts that follow it are one list of parts. -/
theorem actions_member_append {b : Builder} {base : List Action} {pending : String}
    (hb : b.Joins base pending) (owner quoteOpen separator quote : String) (m : Member n)
    {body : List Action} (hbody : Fused body) (parts : List Layout.Part) :
    (b.member owner m (quoteOpen ++ separator ++ m.escapedName ++ quote) body).actions ++
        Layout.memberActions owner quote "," parts =
      base ++ Layout.memberActions owner (pending ++ quoteOpen) separator
        (⟨m.toPlace, quote, body⟩ :: parts) := by
  have hlead : quoteOpen ++ separator ++ m.escapedName ++ quote ≠ "" := by
    simp [Member.escapedName, Json.memberName, Json.quoted]
  rw [actions_member hb hlead hbody, Layout.memberActions]
  simp [Member.escapedName, Member.toPlace, Member.ref, Place.ref, String.append_assoc]

theorem joins_member (b : Builder) (owner : String) (m : Member n) (lead : String)
    (body : List Action) :
    (b.member owner m lead body).Joins (b.member owner m lead body).actions "" :=
  joins_of_not_endsInLiteral (endsInLiteral_push rfl)

end Builder

namespace Schema

variable {S : Schema n} {includeInherited : Bool}

theorem unquotedLeaf_eq {t : Fin n} {a : Atom} (h : (S t).kind.stringLike? = some a) :
    (S t).unquotedLeaf = .ok (a.leaf false) := by
  unfold Kind.stringLike? at h
  unfold Shape.unquotedLeaf
  split at h <;> simp_all
  all_goals (subst h; rfl)

theorem layoutMembers_map {layouts : Fin n → Except Error Layout} {m : Member n}
    {rest : List (Member n)} (f : List (Place × Layout) → β) :
    (S.layoutMembers layouts (m :: rest)).map f =
      (S.memberLayout layouts m >>= fun L =>
        (S.layoutMembers layouts rest).map fun inner => f ((m.toPlace, L) :: inner)) := by
  rw [layoutMembers]
  cases S.memberLayout layouts m with
  | error e => rfl
  | ok L => cases S.layoutMembers layouts rest <;> rfl

/-- Appending members builds their parts one after another. -/
theorem addMembers_computes {I : PlanCache n → Prop} {child : Fin n → PlanM n Program}
    {layouts : Fin n → Except Error Layout} {members : List (Member n)}
    (hchild : ∀ m ∈ members, PlanM.Computes I (child m.shape)
      ((layouts m.shape).map Layout.program))
    (hquotes : ∀ u L, layouts u = .ok L → L.isStringLike = (S u).kind.isStringLike)
    (owner : String) {pending : String} {b : Builder} {base : List Action}
    (hb : b.Joins base pending) (first quoteOpen : Bool) :
    PlanM.Computes I (S.addMembers child owner b first quoteOpen members)
      ((S.layoutMembers layouts members).map fun inner =>
        ⟨(base ++ Layout.memberActions owner (pending ++ if quoteOpen then "\"" else "")
          (if first then "" else ",") (inner.map Layout.part)).reverse⟩) := by
  induction members generalizing pending b base first quoteOpen with
  | nil =>
      have hclose : (if quoteOpen then "\"\x7d" else "\x7d") =
          (if quoteOpen then "\"" else "") ++ "\x7d" := by
        cases quoteOpen <;> rfl
      have hlast := hb ((if quoteOpen then "\"" else "") ++ "\x7d") (by cases quoteOpen <;> simp)
      rw [addMembers, hclose, Builder.eq_of_actions_eq hlast, ← String.append_assoc]
      exact .pure _
  | cons m rest ih =>
      have hrest := fun u hu => hchild u (List.mem_cons_of_mem m hu)
      rw [layoutMembers_map, addMembers]
      cases ha : (S m.shape).kind.stringLike? with
      | some a =>
          -- The quotes go into the literals on either side of the member's region.
          obtain ⟨hkind, hatom⟩ := Kind.isStringLike_of_stringLike? ha
          have hpart : Layout.part (m.toPlace, .atom a) = ⟨m.toPlace, "\"", [.write (a.leaf false)]⟩ := by
            simp [Layout.part, Layout.quote, Layout.isStringLike, hatom]
          have hnext := ih hrest (Builder.joins_member b owner m ((if quoteOpen then "\"" else "") ++
            (if first then "" else ",") ++ m.escapedName ++ "\"") [.write (a.leaf false)]) false true
          rw [if_pos hkind, unquotedLeaf_eq ha, memberLayout, ha]
          refine PlanM.Computes.bind (.lift (.ok (a.leaf false)))
            (g := fun _ => (S.layoutMembers layouts rest).map _) ?_
          intro leaf hleaf
          cases hleaf
          have hbody : Fused [.write (a.leaf false)] := Fused.nil.cons rfl
          have happend := Builder.actions_member_append hb owner
            (if quoteOpen then "\"" else "") (if first then "" else ",") "\"" m hbody
          simpa only [List.map_cons, hpart, String.empty_append, if_true, Bool.false_eq_true,
            if_false, happend] using hnext
      | none =>
          -- The program of the member's shape is spliced in as it stands.
          have hkind := Kind.isStringLike_of_stringLike?_eq_none ha
          rw [if_neg (by simp [hkind]), memberLayout, ha]
          have hinner := hchild m (by simp)
          cases hL : layouts m.shape with
          | error e =>
              rw [hL] at hinner
              exact PlanM.Computes.bind (r := .error e) (g := fun _ => .error e) hinner
                fun p hp => by cases hp
          | ok L =>
              have hlike : L.isStringLike = false := by rw [hquotes _ _ hL, hkind]
              have hpart : Layout.part (m.toPlace, L) = ⟨m.toPlace, "", L.actions true⟩ := by
                simp [Layout.part, Layout.quote, hlike,
                  Layout.actions_eq_of_not_isStringLike hlike false]
              have hnext := ih hrest (Builder.joins_member b owner m ((if quoteOpen then "\"" else "") ++
                (if first then "" else ",") ++ m.escapedName) (L.actions true)) false false
              rw [hL] at hinner
              refine PlanM.Computes.bind (r := .ok L.program)
                (g := fun _ => (S.layoutMembers layouts rest).map _) hinner ?_
              intro p hp
              cases hp
              have happend := Builder.actions_member_append hb owner
                (if quoteOpen then "\"" else "") (if first then "" else ",") "" m
                (Layout.fused_actions L true)
              simp only [String.append_empty] at happend
              simpa only [List.map_cons, hpart, String.empty_append, Bool.false_eq_true, if_false,
                Layout.actions_program, happend, String.append_empty] using hnext

/-! ## Shapes -/

/-- A region around the program of one shape that is referred to. -/
theorem region_computes {I : PlanCache n → Prop} {m : PlanM n Program}
    {r : Except Error Layout} (hm : PlanM.Computes I m (r.map Layout.program)) {o : Opening}
    {wrap : Layout → Layout} (hwrap : ∀ L, (wrap L).actions true = o.around (L.actions true)) :
    PlanM.Computes I (do return Builder.region o (← m))
      ((r.map wrap).map fun L => ⟨(L.actions true).reverse⟩) := by
  have hbind := hm.bind (f := fun p => pure (Builder.region o p))
    (g := fun p => .ok (Builder.region o p)) fun p _ => .pure _
  cases r with
  | error e => exact hbind
  | ok L =>
      have hregion : Builder.region o L.program = ⟨((wrap L).actions true).reverse⟩ := by
        apply Builder.eq_of_actions_eq
        rw [Builder.actions_region (by simpa using Layout.fused_actions L true), hwrap,
          Layout.actions_program, Opening.around]
      have hresult : (((Except.ok L : Except Error Layout).map wrap).map
          fun L => (⟨(L.actions true).reverse⟩ : Builder)) =
            .ok (Builder.region o L.program) := by
        rw [hregion]
        rfl
      rw [hresult]
      exact hbind

/-- A shape's actions are assembled from the programs of the shapes that it refers to. -/
theorem assemble_computes {I : PlanCache n → Prop} {child : Fin n → PlanM n Program}
    {layouts : Fin n → Except Error Layout} {t : Fin n}
    (hchild : ∀ u, S.Refers includeInherited t u →
      PlanM.Computes I (child u) ((layouts u).map Layout.program))
    (hquotes : ∀ u L, layouts u = .ok L → L.isStringLike = (S u).kind.isStringLike) :
    PlanM.Computes I (S.assemble includeInherited child (S t))
      ((S.unfold includeInherited layouts (S t)).map
        fun L => ⟨(L.actions true).reverse⟩) := by
  rw [assemble, unfold]
  cases hk : (S t).kind with
  | primitive p =>
      simp only [Except.map, Layout.actions_atom, Atom.leaf]
      exact .pure _
  | string =>
      simp only [Except.map, Layout.actions_atom, Atom.leaf]
      exact .pure _
  | optional u => exact region_computes (hchild u (.optional hk)) (by simp)
  | sequence u => exact region_computes (hchild u (.sequence hk)) (by simp)
  | map key u =>
      cases hkey : (S key).kind with
      | string =>
          simp only [hkey]
          exact region_computes (hchild u (.map hk)) (by simp)
      | _ =>
          simp only [hkey]
          exact .throw _
  | composite owner members =>
      have hmembers := addMembers_computes (S := S)
        (fun m hm => hchild m.shape (.member hk hm)) hquotes owner
        (Builder.joins_literal "\x7b" (by simp)) true false
      simp only
      cases hinner : S.layoutMembers layouts (Member.order members includeInherited) with
      | error e =>
          rw [hinner] at hmembers
          exact hmembers
      | ok inner =>
          simpa [hinner, Except.map] using hmembers
  | unencodable => exact .throw _

theorem run_compile_kept {path : List (Fin n)} {t : Fin n} {c : PlanCache n} {p : Program}
    (h : c.get? ⟨t, includeInherited⟩ = some p) :
    (S.compile includeInherited path t).run.run c = (.ok p, c) := by
  rw [compile, run_get_bind]
  simp only [h]
  rfl

theorem run_compile_recursive {path : List (Fin n)} {t : Fin n} {c : PlanCache n}
    (h : c.get? ⟨t, includeInherited⟩ = none) (ht : t ∈ path) :
    (S.compile includeInherited path t).run.run c = (.error (.recursiveShape (S t).name), c) := by
  rw [compile, run_get_bind]
  simp only [h, dif_pos ht]
  rfl

theorem run_compile_fresh {path : List (Fin n)} {t : Fin n} {c : PlanCache n}
    (h : c.get? ⟨t, includeInherited⟩ = none) (ht : t ∉ path) :
    (S.compile includeInherited path t).run.run c =
      (do
        let b ← S.assemble includeInherited (S.compile includeInherited (t :: path)) (S t)
        let p ← b.freeze
        modify fun c => c.install ⟨t, includeInherited⟩ p
        pure p : PlanM n Program).run.run c := by
  rw [compile, run_get_bind]
  simp only [h, dif_neg ht]

theorem freeze_actions (L : Layout) :
    Builder.freeze ⟨(L.actions true).reverse⟩ = .ok L.program := by
  rw [Builder.freeze, Builder.actions, List.reverse_reverse,
    ofActions_of_nested (Layout.nested_actions L true), Layout.program]

theorem install_computes {t : Fin n} {L : Layout} (hL : S.Unfolds includeInherited t L) :
    PlanM.Computes (PlanCache.Sound S)
      (do modify fun c => c.install ⟨t, includeInherited⟩ L.program; pure L.program)
      (.ok L.program) :=
  fun _ hc => ⟨rfl, hc.install hL⟩

/-- Compilation follows the walk that unfolds a shape: it yields the program of the layout that the
walk yields, or the error that it meets. -/
theorem compile_computes (path : List (Fin n)) (t : Fin n)
    (hpath : S.Leads includeInherited path t) :
    PlanM.Computes (PlanCache.Sound S) (S.compile includeInherited path t)
      ((S.layoutFrom includeInherited path t).map Layout.program) := by
  intro c hc
  cases hget : c.get? ⟨t, includeInherited⟩ with
  | some p =>
      -- A program that was kept is that of the layout, which no path hides.
      obtain ⟨L, hL, rfl⟩ := hc _ p hget
      rw [run_compile_kept hget, layoutFrom_of_unfolds hL hpath]
      exact ⟨rfl, hc⟩
  | none =>
      rw [layoutFrom]
      by_cases hmem : t ∈ path
      · rw [run_compile_recursive hget hmem, dif_pos hmem]
        exact ⟨rfl, hc⟩
      · rw [run_compile_fresh hget hmem, dif_neg hmem]
        have hassemble := assemble_computes (S := S) (t := t)
          (fun u hu => compile_computes (t :: path) u (hpath.refers hu))
          (fun u L hL => (unfolds_of_layoutFrom hL).isStringLike_eq)
        cases hr : S.unfold includeInherited (S.layoutFrom includeInherited (t :: path)) (S t) with
        | error e =>
            rw [hr] at hassemble
            exact PlanM.Computes.bind hassemble (g := fun _ => .error e)
              (fun b hb => by cases hb) c hc
        | ok L =>
            have hL := unfolds_unfold hr fun u K hK => unfolds_of_layoutFrom hK
            rw [hr] at hassemble
            refine PlanM.Computes.bind hassemble (g := fun _ => .ok L.program) ?_ c hc
            intro b hb
            cases hb
            rw [freeze_actions]
            exact PlanM.Computes.bind (.lift (.ok L.program)) (g := fun _ => .ok L.program)
              fun p hp => by cases hp; exact install_computes hL
termination_by offPath path
decreasing_by exact offPath_cons_lt hmem

/-! ## Requests -/

theorem plan_eq {c : PlanCache n} (hc : c.Sound S) (t : Fin n) :
    (S.plan c t includeInherited).1 = (S.layout includeInherited t).map Layout.program ∧
      (S.plan c t includeInherited).2.Sound S :=
  compile_computes [] t (.nil t) c hc

theorem plan_labelled (name : String) (includeInherited : Bool) :
    ((labelled name).plan .empty labelledRoot includeInherited).1 = .ok (labelledLayout name).program := by
  rw [(plan_eq (PlanCache.sound_empty _) labelledRoot).1, layout_labelled]
  rfl

end Schema

theorem PlanCache.Reachable.sound {S : Schema n} {c : PlanCache n} (h : c.Reachable S) :
    c.Sound S := by
  induction h with
  | empty => exact sound_empty S
  | request t includeInherited _ ih => exact (Schema.plan_eq ih t).2

/-- A request that succeeds hands out the program of a layout. -/
theorem PlanCache.Reachable.plan_eq_ok {S : Schema n} {c : PlanCache n} (h : c.Reachable S)
    {t : Fin n} {includeInherited : Bool} {p : Program}
    (hp : (S.plan c t includeInherited).1 = .ok p) :
    ∃ L, S.layout includeInherited t = .ok L ∧ p = L.program := by
  rw [(Schema.plan_eq h.sound t).1] at hp
  obtain ⟨L, hL, rfl⟩ := map_eq_ok.mp hp
  exact ⟨L, hL, rfl⟩

end JsonPlan
