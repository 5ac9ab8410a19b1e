import JsonPlan.Error
import JsonPlan.Shape.Order

/-!
What keeps a shape from having a program. A schema is a graph: from a shape there is an edge to each
shape that its program is built from. A walk is given by its turns, each the place of the next
shape among those that there is an edge to.
-/

namespace JsonPlan.Schema

variable {n : Nat} (S : Schema n) (includeInherited : Bool)

/-- The shapes that a shape's program is built from, in the order in which they are compiled. A
member that is written between quotes needs no program, and neither does the key of a map. -/
def parts (t : Fin n) : List (Fin n) :=
  match (S t).kind with
  | .optional inner => [inner]
  | .sequence element => [element]
  | .map _ value => [value]
  | .composite _ members =>
    ((Member.order members includeInherited).map (·.shape)).filter fun u =>
      !(S u).kind.isStringLike
  | .primitive _ | .string | .unencodable => []

/-- `u` is `t`, or is what the program of `t` is built from, directly or not. -/
inductive Reaches (t : Fin n) : Fin n → Prop where
  | here : Reaches t t
  | part {u v : Fin n} : Reaches t u → v ∈ S.parts includeInherited u → Reaches t v

/-- The graph from `t` on has no cycle, no shape without an encoding and no map whose keys are not
texts. -/
structure Compilable (t : Fin n) : Prop where
  acyclic {u v : Fin n} : S.Reaches includeInherited t u → v ∈ S.parts includeInherited u →
    ¬ S.Reaches includeInherited v u
  encodable {u : Fin n} : S.Reaches includeInherited t u → (S u).kind ≠ .unencodable
  textKeys {u key value : Fin n} : S.Reaches includeInherited t u →
    (S u).kind = .map key value → (S key).kind = .string

/-- `t` has no program, for the reason `e`, however it was come to. -/
inductive Faulty (t : Fin n) : Error → Prop where
  | recursive {u : Fin n} : u ∈ S.parts includeInherited t → S.Reaches includeInherited u t →
      Faulty t (.recursiveShape (S t).name)
  | unencodable : (S t).kind = .unencodable → Faulty t (.unsupportedShape (S t).name)
  | nonTextKeys {key value : Fin n} : (S t).kind = .map key value → (S key).kind ≠ .string →
      Faulty t (.nonStringKey (S t).name (S key).name)

/-! ## Defects in depth-first order -/

/-- What is wrong with a shape that a walk comes to over the shapes of `path`. -/
def defect? (path : List (Fin n)) (t : Fin n) : Option Error :=
  if path.contains t then some (.recursiveShape (S t).name)
  else
    match (S t).kind with
    | .unencodable => some (.unsupportedShape (S t).name)
    | .map key _ =>
      if (S key).kind = .string then none else some (.nonStringKey (S t).name (S key).name)
    | _ => none

/-- The shapes that a walk from `t` comes over, the last one first, and the shape that it ends at.
`path` was walked before. -/
def walk (path : List (Fin n)) (t : Fin n) : List Nat → Option (List (Fin n) × Fin n)
  | [] => some (path, t)
  | turn :: turns =>
    (S.parts includeInherited t)[turn]?.bind fun u => walk (t :: path) u turns

/-- What is wrong at the end of a walk. -/
def defectAt (path : List (Fin n)) (t : Fin n) (turns : List Nat) : Option Error :=
  (S.walk includeInherited path t turns).bind fun reached => S.defect? reached.1 reached.2

/-- `e` is what is wrong at the end of a walk, and nothing is wrong at the end of a walk before it.
Walks are ordered as their turns are: a walk comes before those that go on from it, and before
those that turn off to the right of it. -/
def FirstDefect (path : List (Fin n)) (t : Fin n) (e : Error) : Prop :=
  ∃ turns, S.defectAt includeInherited path t turns = some e ∧
    ∀ earlier, earlier < turns → S.defectAt includeInherited path t earlier = none

end JsonPlan.Schema
