import JsonPlan.Layout.Basic
import JsonPlan.View.Basic

/-! Which views a run meets at which places of a layout. -/

namespace JsonPlan

namespace View

/-- Whether a view is no infinite float and not NaN. -/
def isFinite : View → Bool
  | float x => x.datum.isFinite
  | double x => x.datum.isFinite
  | _ => true

end View

namespace Layout

/-- `Visits L v K w`: a run of `L` on `v` comes to `K` with the view `w`. -/
inductive Visits : Layout → View → Layout → View → Prop where
  | here {L : Layout} {v : View} : Visits L v L v
  | optional {inner K : Layout} {v w : View} (present : v.isNull = false) :
      Visits inner v K w → Visits (.optional inner) v K w
  | item {element K : Layout} {items : List View} {x w : View} (mem : x ∈ items) :
      Visits element x K w → Visits (.sequence element) (.seq items) K w
  | entry {value K : Layout} {entries : List (View × View)} {e : View × View} {w : View}
      (mem : e ∈ entries) :
      Visits value e.2 K w → Visits (.map value) (.map entries) K w
  | member {owner : String} {members : List (Place × Layout)} {m : Place × Layout}
      {fields : List View} {x w : View} {K : Layout} (mem : m ∈ members)
      (read : fields[m.1.slot]? = some x) :
      Visits m.2 x K w → Visits (.composite owner members) (.object owner fields) K w

/-- Every member that is visited hands over a view. -/
def Supplied (L : Layout) (v : View) : Prop :=
  ∀ owner members fields, Visits L v (.composite owner members) (.object owner fields) →
    ∀ m ∈ members, ∃ x, fields[m.1.slot]? = some x

/-- No float that is visited as a scalar is infinite or NaN. -/
def FiniteFloats (L : Layout) (v : View) : Prop := ∀ a w, Visits L v (.atom a) w → w.isFinite

end Layout
end JsonPlan
