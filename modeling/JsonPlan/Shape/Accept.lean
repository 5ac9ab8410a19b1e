import JsonPlan.Layout.Fit
import JsonPlan.Shape.Basic

/-! Which views a shape accepts, said of the shapes alone. -/

namespace JsonPlan

/-- Whether an absent value is accepted wherever a kind is expected. Objects must be there. -/
def Kind.acceptsNull {n : Nat} : Kind n → Bool
  | composite .. | unencodable => false
  | _ => true

/-- Whether a member takes part when inherited members do or do not. -/
def Member.Included {n : Nat} (includeInherited : Bool) (m : Member n) : Prop :=
  includeInherited = true ∨ m.inherited = false

/-- `S.Accepts includeInherited t v`: what `v` shows can be written as a value of `t`. -/
inductive Schema.Accepts {n : Nat} (S : Schema n) (includeInherited : Bool) :
    Fin n → View → Prop where
  | null {t : Fin n} (kind : (S t).kind.acceptsNull = true) : Accepts S includeInherited t .null
  | primitive {t : Fin n} {p : Primitive} {v : View} (kind : (S t).kind = .primitive p)
      (fits : (p.leaf true).matches v = true) : Accepts S includeInherited t v
  | string {t : Fin n} {text : String} (kind : (S t).kind = .string) :
      Accepts S includeInherited t (.str text)
  | optional {t u : Fin n} {v : View} (kind : (S t).kind = .optional u) :
      Accepts S includeInherited u v → Accepts S includeInherited t v
  | sequence {t u : Fin n} {items : List View} (kind : (S t).kind = .sequence u)
      (accepted : ∀ w ∈ items, Accepts S includeInherited u w) :
      Accepts S includeInherited t (.seq items)
  | map {t key u : Fin n} {entries : List (View × View)} (kind : (S t).kind = .map key u)
      (keys : ∀ e ∈ entries, ∃ text, e.1 = .str text)
      (accepted : ∀ e ∈ entries, Accepts S includeInherited u e.2) :
      Accepts S includeInherited t (.map entries)
  /-- Nothing is read from what is written without members. -/
  | memberless {t : Fin n} {owner : String} {members : List (Member n)} {v : View}
      (kind : (S t).kind = .composite owner members)
      (none : ∀ m ∈ members, ¬ m.Included includeInherited) : Accepts S includeInherited t v
  | composite {t : Fin n} {owner : String} {members : List (Member n)} {fields : List View}
      (kind : (S t).kind = .composite owner members)
      (read : ∀ m ∈ members, m.Included includeInherited → ∃ w, fields[m.slot]? = some w)
      (accepted : ∀ m ∈ members, m.Included includeInherited → ∀ w, fields[m.slot]? = some w →
        Accepts S includeInherited m.shape w) :
      Accepts S includeInherited t (.object owner fields)

end JsonPlan
