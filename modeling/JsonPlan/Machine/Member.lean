import JsonPlan.Machine.Writing
import JsonPlan.Plan.History

/-!
What a composite's program writes for each of its members, by the program that the member's shape has
on its own.
-/

namespace JsonPlan

/-- A text that follows the value of a member: it goes on with the next name, or closes. -/
def Member.Resumes {n : Nat} (after : List (Member n)) (text : String) : Prop :=
  match after with
  | [] => text = "\x7d"
  | next :: _ => ∃ more, text = "," ++ next.escapedName ++ more

namespace Schema

variable {n : Nat} (S : Schema n) (includeInherited : Bool) (style : Style)

/-- What the program that a shape has on its own writes, and how it ends. -/
def alone (t : Fin n) (v : View) : String × Option Error :=
  match S.fresh ⟨t, includeInherited⟩ with
  | .ok p => (runInto style p.steps v).into ""
  | .error e => ("", some e)

/-- What a member shows, if anything, is nothing that its own program fails on. -/
def Passes (fields : List View) (m : Member n) : Prop :=
  ∀ w, fields[m.slot]? = some w → (S.alone includeInherited style m.shape w).2 = none

/-- What stands behind the name of a member. The quotes of a string-like one are there before it is
known whether there is anything to quote. -/
def memberValue (fields : List View) (m : Member n) : String :=
  match fields[m.slot]? with
  | none => if (S m.shape).kind.isStringLike then "\"\"" else ""
  | some w =>
    if (S m.shape).kind.isStringLike && w.isNull then "\"null\""
    else (S.alone includeInherited style m.shape w).1

end Schema
end JsonPlan
