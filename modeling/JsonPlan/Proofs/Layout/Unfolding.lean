import JsonPlan.Layout.Basic
import JsonPlan.Proofs.Outcome
import Mathlib.Data.List.Forall2

/-!
Layouts without paths. A shape unfolds to at most one layout, and a path is no obstacle to it: a
shape on the path would have to lie inside its own layout.
-/

namespace JsonPlan

namespace Kind

variable {n : Nat}

theorem isStringLike_of_stringLike? {k : Kind n} {a : Atom} (h : k.stringLike? = some a) :
    k.isStringLike = true ∧ a.isStringLike = true := by
  unfold stringLike? at h
  split at h <;> simp_all [isStringLike, Atom.isStringLike]
  all_goals (subst h; rfl)

theorem isStringLike_of_stringLike?_eq_none {k : Kind n} (h : k.stringLike? = none) :
    k.isStringLike = false := by
  unfold stringLike? at h
  unfold isStringLike
  split at h <;> simp_all

end Kind

namespace Schema

variable {n : Nat}

/-- `t` unfolds to a layout, every reference being followed. -/
inductive Unfolds (S : Schema n) (includeInherited : Bool) : Fin n → Layout → Prop where
  | primitive {t : Fin n} {p : Primitive} (kind : (S t).kind = .primitive p) :
      Unfolds S includeInherited t (.atom (.primitive p))
  | string {t : Fin n} (kind : (S t).kind = .string) :
      Unfolds S includeInherited t (.atom .string)
  | optional {t u : Fin n} {L : Layout} (kind : (S t).kind = .optional u) :
      Unfolds S includeInherited u L → Unfolds S includeInherited t (.optional L)
  | sequence {t u : Fin n} {L : Layout} (kind : (S t).kind = .sequence u) :
      Unfolds S includeInherited u L → Unfolds S includeInherited t (.sequence L)
  | map {t key u : Fin n} {L : Layout} (kind : (S t).kind = .map key u)
      (text : (S key).kind = .string) :
      Unfolds S includeInherited u L → Unfolds S includeInherited t (.map L)
  | composite {t : Fin n} {owner : String} {members : List (Member n)}
      {inner : List (Place × Layout)} (kind : (S t).kind = .composite owner members)
      (places : inner.map Prod.fst = (Member.order members includeInherited).map Member.toPlace)
      (unfolds : ∀ p ∈ (Member.order members includeInherited).zip inner,
        Unfolds S includeInherited p.1.shape p.2.2) :
      Unfolds S includeInherited t (.composite owner inner)

variable {S : Schema n} {includeInherited : Bool}

/-- The members of a composite have one list of layouts if each of them has one layout. -/
theorem members_unique {members : List (Member n)} {as bs : List (Place × Layout)}
    (ha : as.map Prod.fst = members.map Member.toPlace)
    (hb : bs.map Prod.fst = members.map Member.toPlace)
    (unique : ∀ p ∈ members.zip as, ∀ K, S.Unfolds includeInherited p.1.shape K → p.2.2 = K)
    (unfolds : ∀ p ∈ members.zip bs, S.Unfolds includeInherited p.1.shape p.2.2) : as = bs := by
  induction members generalizing as bs with
  | nil => simp_all
  | cons m members ih =>
      obtain ⟨⟨placeA, inA⟩, restA, rfl⟩ := List.exists_cons_of_length_eq_add_one
        (l := as) (n := members.length) (by simpa using congrArg List.length ha)
      obtain ⟨⟨placeB, inB⟩, restB, rfl⟩ := List.exists_cons_of_length_eq_add_one
        (l := bs) (n := members.length) (by simpa using congrArg List.length hb)
      simp only [List.map_cons, List.cons.injEq] at ha hb
      have hinner : inA = inB :=
        unique (m, placeA, inA) (by simp) inB (unfolds (m, placeB, inB) (by simp))
      have hrest : restA = restB :=
        ih ha.2 hb.2 (fun p hp => unique p (by simp [hp])) (fun p hp => unfolds p (by simp [hp]))
      rw [ha.1, hb.1, hinner, hrest]

theorem Unfolds.unique {t : Fin n} {L K : Layout} (hL : S.Unfolds includeInherited t L)
    (hK : S.Unfolds includeInherited t K) : L = K := by
  induction hL generalizing K with
  | primitive kind => cases hK <;> simp_all
  | string kind => cases hK <;> simp_all
  | optional kind _ ih =>
      cases hK with
      | optional kind' h =>
          rw [kind] at kind'
          cases kind'
          rw [ih h]
      | _ => simp_all
  | sequence kind _ ih =>
      cases hK with
      | sequence kind' h =>
          rw [kind] at kind'
          cases kind'
          rw [ih h]
      | _ => simp_all
  | map kind _ _ ih =>
      cases hK with
      | map kind' _ h =>
          rw [kind] at kind'
          cases kind'
          rw [ih h]
      | _ => simp_all
  | composite kind places _ ih =>
      cases hK with
      | composite kind' places' h =>
          rw [kind] at kind'
          cases kind'
          rw [members_unique places places' (fun p hp K => ih p hp) h]
      | _ => simp_all

theorem Unfolds.isStringLike_eq {t : Fin n} {L : Layout} (h : S.Unfolds includeInherited t L) :
    L.isStringLike = (S t).kind.isStringLike := by
  cases h with
  | @primitive _ p kind =>
      rw [kind]
      cases p <;> rfl
  | _ kind => simp [kind, Layout.isStringLike, Kind.isStringLike, Atom.isStringLike]

/-! ## From the walk to the relation -/

theorem layoutMembers_cons {child : Fin n → Except Error Layout} {m : Member n}
    {rest : List (Member n)} {inner : List (Place × Layout)} :
    S.layoutMembers child (m :: rest) = .ok inner ↔
      ∃ L, S.memberLayout child m = .ok L ∧
        ∃ ms, S.layoutMembers child rest = .ok ms ∧ (m.toPlace, L) :: ms = inner := by
  rw [layoutMembers]
  simp only [bind_eq_ok, pure, Except.pure, Except.ok.injEq]

theorem unfolds_of_stringLike? {t : Fin n} {a : Atom} (h : (S t).kind.stringLike? = some a) :
    S.Unfolds includeInherited t (.atom a) := by
  unfold Kind.stringLike? at h
  split at h <;> simp only [Option.some.injEq, reduceCtorEq] at h
  · subst h
    exact .string (by assumption)
  · subst h
    exact .primitive (by assumption)
  · subst h
    exact .primitive (by assumption)

theorem unfolds_memberLayout {child : Fin n → Except Error Layout} {m : Member n} {L : Layout}
    (h : S.memberLayout child m = .ok L)
    (hchild : ∀ u L, child u = .ok L → S.Unfolds includeInherited u L) :
    S.Unfolds includeInherited m.shape L := by
  unfold memberLayout at h
  split at h
  · cases h
    exact unfolds_of_stringLike? (by assumption)
  · exact hchild _ _ h

theorem unfolds_layoutMembers {child : Fin n → Except Error Layout} {members : List (Member n)}
    {inner : List (Place × Layout)} (h : S.layoutMembers child members = .ok inner)
    (hchild : ∀ u L, child u = .ok L → S.Unfolds includeInherited u L) :
    inner.map Prod.fst = members.map Member.toPlace ∧
      ∀ p ∈ members.zip inner, S.Unfolds includeInherited p.1.shape p.2.2 := by
  induction members generalizing inner with
  | nil =>
      rw [layoutMembers] at h
      cases h
      simp
  | cons m rest ih =>
      obtain ⟨L, hL, ms, hms, rfl⟩ := layoutMembers_cons.mp h
      obtain ⟨hplaces, hrest⟩ := ih hms
      refine ⟨by simp [hplaces], ?_⟩
      intro p hp
      rw [List.zip_cons_cons] at hp
      rcases List.mem_cons.mp hp with rfl | hp
      · exact unfolds_memberLayout hL hchild
      · exact hrest p hp

theorem unfolds_unfold {child : Fin n → Except Error Layout} {t : Fin n} {L : Layout}
    (h : S.unfold includeInherited child (S t) = .ok L)
    (hchild : ∀ u L, child u = .ok L → S.Unfolds includeInherited u L) :
    S.Unfolds includeInherited t L := by
  unfold unfold at h
  cases hk : (S t).kind with
  | primitive p =>
      simp only [hk, Except.ok.injEq] at h
      exact h ▸ .primitive hk
  | string =>
      simp only [hk, Except.ok.injEq] at h
      exact h ▸ .string hk
  | optional u =>
      simp only [hk, map_eq_ok] at h
      obtain ⟨K, hK, rfl⟩ := h
      exact .optional hk (hchild u K hK)
  | sequence u =>
      simp only [hk, map_eq_ok] at h
      obtain ⟨K, hK, rfl⟩ := h
      exact .sequence hk (hchild u K hK)
  | map key u =>
      simp only [hk] at h
      split at h
      · rename_i htext
        obtain ⟨K, hK, rfl⟩ := map_eq_ok.mp h
        exact .map hk htext (hchild u K hK)
      · simp at h
  | composite owner members =>
      simp only [hk, map_eq_ok] at h
      obtain ⟨inner, hinner, rfl⟩ := h
      obtain ⟨hplaces, hunfolds⟩ := unfolds_layoutMembers hinner hchild
      exact .composite hk hplaces hunfolds
  | unencodable => simp [hk] at h

theorem unfolds_of_layoutFrom {path : List (Fin n)} {t : Fin n} {L : Layout}
    (h : S.layoutFrom includeInherited path t = .ok L) : S.Unfolds includeInherited t L := by
  rw [layoutFrom] at h
  by_cases hpath : t ∈ path
  · simp [hpath] at h
  · rw [dif_neg hpath] at h
    exact unfolds_unfold h fun u K hK => unfolds_of_layoutFrom hK
termination_by offPath path
decreasing_by exact offPath_cons_lt hpath

/-! ## From the relation to the walk -/

/-- If `t` has a layout then that of `u` lies inside it. -/
def Inside (S : Schema n) (includeInherited : Bool) (u t : Fin n) : Prop :=
  ∀ L, S.Unfolds includeInherited t L →
    ∃ K, S.Unfolds includeInherited u K ∧ sizeOf K < sizeOf L

theorem Inside.trans {u t s : Fin n} (hut : S.Inside includeInherited u t)
    (hts : S.Inside includeInherited t s) : S.Inside includeInherited u s := by
  intro M hM
  obtain ⟨L, hL, hlt⟩ := hts M hM
  obtain ⟨K, hK, hlt'⟩ := hut L hL
  exact ⟨K, hK, Nat.lt_trans hlt' hlt⟩

theorem not_inside_self {t : Fin n} {L : Layout} (h : S.Unfolds includeInherited t L) :
    ¬ S.Inside includeInherited t t := by
  intro hself
  obtain ⟨K, hK, hlt⟩ := hself L h
  rw [hK.unique h] at hlt
  exact absurd hlt (Nat.lt_irrefl _)

/-- The shapes that a shape refers to and that its program is built from. -/
inductive Refers (S : Schema n) (includeInherited : Bool) (t : Fin n) : Fin n → Prop where
  | optional {u : Fin n} (kind : (S t).kind = .optional u) : Refers S includeInherited t u
  | sequence {u : Fin n} (kind : (S t).kind = .sequence u) : Refers S includeInherited t u
  | map {key u : Fin n} (kind : (S t).kind = .map key u) : Refers S includeInherited t u
  | member {owner : String} {members : List (Member n)} {m : Member n}
      (kind : (S t).kind = .composite owner members)
      (mem : m ∈ Member.order members includeInherited) : Refers S includeInherited t m.shape

section Places

variable {members : List (Member n)} {inner : List (Place × Layout)}

/-- Members and the parts of a layout that stand for them, side by side. -/
theorem forall₂_places (hplaces : inner.map Prod.fst = members.map Member.toPlace) :
    List.Forall₂ (fun (m : Member n) (p : Place × Layout) => p.1 = m.toPlace) members inner := by
  rw [← List.forall₂_eq_eq_eq] at hplaces
  simpa using (List.forall₂_map_right_iff.mp (List.forall₂_map_left_iff.mp hplaces)).flip

theorem mem_of_mem_zip_shape (hplaces : inner.map Prod.fst = members.map Member.toPlace)
    {m : Member n} (hm : m ∈ members) : ∃ p ∈ inner, (m, p) ∈ members.zip inner := by
  have hlen := (forall₂_places hplaces).length_eq
  obtain ⟨i, hi, rfl⟩ := List.mem_iff_getElem.mp hm
  refine ⟨inner[i], List.getElem_mem _, ?_⟩
  rw [List.mem_iff_getElem]
  exact ⟨i, by simp [hi, ← hlen], by simp⟩

theorem exists_mem_zip_of_mem (hplaces : inner.map Prod.fst = members.map Member.toPlace)
    {p : Place × Layout} (hp : p ∈ inner) : ∃ m ∈ members, (m, p) ∈ members.zip inner := by
  have hlen := (forall₂_places hplaces).length_eq
  obtain ⟨i, hi, rfl⟩ := List.mem_iff_getElem.mp hp
  refine ⟨members[i], List.getElem_mem _, ?_⟩
  rw [List.mem_iff_getElem]
  exact ⟨i, by simp [hi, hlen], by simp⟩

theorem fst_eq_of_mem_zip (hplaces : inner.map Prod.fst = members.map Member.toPlace)
    {m : Member n} {p : Place × Layout} (h : (m, p) ∈ members.zip inner) : p.1 = m.toPlace :=
  (List.forall₂_iff_zip.mp (forall₂_places hplaces)).2 h

end Places

/-- What a shape refers to unfolds to a proper part of its layout. -/
theorem Refers.inside {t u : Fin n} (h : S.Refers includeInherited t u) :
    S.Inside includeInherited u t := by
  intro L hL
  cases hL with
  | primitive kind => cases h <;> simp_all
  | string kind => cases h <;> simp_all
  | @optional _ _ K kind hK =>
      cases h <;> simp_all
      exact ⟨K, hK, by omega⟩
  | @sequence _ _ K kind hK =>
      cases h <;> simp_all
      exact ⟨K, hK, by omega⟩
  | @map _ _ _ K kind _ hK =>
      cases h <;> simp_all
      exact ⟨K, hK, by omega⟩
  | composite kind hplaces hunfolds =>
      cases h with
      | member kind' mem =>
          rw [kind] at kind'
          cases kind'
          obtain ⟨p, hp, hzip⟩ := mem_of_mem_zip_shape hplaces mem
          exact ⟨p.2, hunfolds _ hzip, Layout.sizeOf_lt_composite hp⟩
      | _ kind' => simp [kind] at kind'

theorem memberLayout_eq_ok {child : Fin n → Except Error Layout} {m : Member n} {L : Layout}
    (hL : S.Unfolds includeInherited m.shape L) (hchild : child m.shape = .ok L) :
    S.memberLayout child m = .ok L := by
  unfold memberLayout
  split
  · rename_i a ha
    rw [hL.unique (unfolds_of_stringLike? ha)]
  · exact hchild

theorem layoutMembers_eq_ok {child : Fin n → Except Error Layout} {members : List (Member n)}
    {inner : List (Place × Layout)}
    (hplaces : inner.map Prod.fst = members.map Member.toPlace)
    (hunfolds : ∀ p ∈ members.zip inner, S.Unfolds includeInherited p.1.shape p.2.2)
    (hchild : ∀ p ∈ members.zip inner, child p.1.shape = .ok p.2.2) :
    S.layoutMembers child members = .ok inner := by
  induction members generalizing inner with
  | nil =>
      have hnil : inner = [] := by simpa using hplaces
      rw [layoutMembers, hnil]
  | cons m members ih =>
      obtain ⟨⟨place, L⟩, rest, rfl⟩ := List.exists_cons_of_length_eq_add_one
        (l := inner) (n := members.length) (by simpa using congrArg List.length hplaces)
      simp only [List.map_cons, List.cons.injEq] at hplaces
      have hhead : (m, place, L) ∈ (m :: members).zip ((place, L) :: rest) := by simp
      refine layoutMembers_cons.mpr
        ⟨L, memberLayout_eq_ok (hunfolds _ hhead) (hchild _ hhead), rest, ?_, ?_⟩
      · exact ih hplaces.2 (fun p hp => hunfolds p (by simp [hp]))
          (fun p hp => hchild p (by simp [hp]))
      · rw [← hplaces.1]

/-- Every shape on `path` has `t` inside of its layout, as on the way of a walk to `t`. -/
def Leads (S : Schema n) (includeInherited : Bool) (path : List (Fin n)) (t : Fin n) : Prop :=
  ∀ u ∈ path, S.Inside includeInherited t u

theorem Leads.nil (t : Fin n) : S.Leads includeInherited [] t := by simp [Leads]

theorem Leads.refers {path : List (Fin n)} {t v : Fin n} (h : S.Leads includeInherited path t)
    (hv : S.Refers includeInherited t v) : S.Leads includeInherited (t :: path) v := by
  intro u hu
  rcases List.mem_cons.mp hu with rfl | hu
  · exact hv.inside
  · exact hv.inside.trans (h u hu)

theorem layoutFrom_eq_unfold {path : List (Fin n)} {t : Fin n} {L : Layout}
    (h : S.Unfolds includeInherited t L) (hpath : S.Leads includeInherited path t) :
    S.layoutFrom includeInherited path t =
      S.unfold includeInherited (S.layoutFrom includeInherited (t :: path)) (S t) := by
  have hself : t ∉ path := fun hmem => not_inside_self h (hpath t hmem)
  rw [layoutFrom, dif_neg hself]

/-- A path that leads to a shape does not keep it from its layout. -/
theorem layoutFrom_of_unfolds {path : List (Fin n)} {t : Fin n} {L : Layout}
    (h : S.Unfolds includeInherited t L) (hpath : S.Leads includeInherited path t) :
    S.layoutFrom includeInherited path t = .ok L := by
  induction h generalizing path with
  | primitive kind =>
      rw [layoutFrom_eq_unfold (.primitive kind) hpath, unfold, kind]
  | string kind =>
      rw [layoutFrom_eq_unfold (.string kind) hpath, unfold, kind]
  | optional kind hK ih =>
      rw [layoutFrom_eq_unfold (.optional kind hK) hpath, unfold, kind]
      simp only [ih (hpath.refers (.optional kind)), Except.map]
  | sequence kind hK ih =>
      rw [layoutFrom_eq_unfold (.sequence kind hK) hpath, unfold, kind]
      simp only [ih (hpath.refers (.sequence kind)), Except.map]
  | map kind text hK ih =>
      rw [layoutFrom_eq_unfold (.map kind text hK) hpath, unfold, kind]
      simp only [text, ih (hpath.refers (.map kind)), Except.map]
  | composite kind hplaces hunfolds ih =>
      rw [layoutFrom_eq_unfold (.composite kind hplaces hunfolds) hpath, unfold, kind]
      have hmembers := layoutMembers_eq_ok hplaces hunfolds fun p hp =>
        ih p hp (hpath.refers (.member kind (List.of_mem_zip hp).1))
      simp only [hmembers, Except.map]

theorem layout_eq_ok_iff {t : Fin n} {L : Layout} :
    S.layout includeInherited t = .ok L ↔ S.Unfolds includeInherited t L :=
  ⟨unfolds_of_layoutFrom, fun h => layoutFrom_of_unfolds h (.nil t)⟩

/-! ## An example -/

/-- A composite of a text that goes by `name`, and of a count that may be absent. -/
def labelled (name : String) : Schema 4
  | 0 => ⟨"Labelled", .composite "Labelled"
      [⟨name, .field 0, false, 1, 0⟩, ⟨"count", .field 24, false, 2, 1⟩]⟩
  | 1 => ⟨"String", .string⟩
  | 2 => ⟨"Option", .optional 3⟩
  | 3 => ⟨"i64", .primitive .int⟩

def labelledRoot : Fin 4 := 0

def labelledLayout (name : String) : Layout :=
  .composite "Labelled"
    [(⟨name, 0, false⟩, .atom .string), (⟨"count", 1, false⟩, .optional (.atom (.primitive .int)))]

theorem layout_labelled (name : String) (includeInherited : Bool) :
    (labelled name).layout includeInherited labelledRoot = .ok (labelledLayout name) := by
  have horder : Member.order [⟨name, .field 0, false, 1, 0⟩, ⟨"count", .field 24, false, 2, 1⟩]
      includeInherited =
        [(⟨name, .field 0, false, 1, 0⟩ : Member 4), ⟨"count", .field 24, false, 2, 1⟩] := by
    cases includeInherited <;> rfl
  rw [layout_eq_ok_iff]
  refine .composite rfl ?_ ?_
  · rw [horder]
    rfl
  · rw [horder]
    simp only [List.zip_cons_cons, List.zip_nil_right, List.forall_mem_cons]
    exact ⟨.string rfl, .optional rfl (.primitive rfl), by simp⟩

end Schema
end JsonPlan
