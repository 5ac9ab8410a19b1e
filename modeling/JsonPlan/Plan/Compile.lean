import JsonPlan.Plan.Cache
import JsonPlan.Program.Builder
import JsonPlan.Shape.Order
import JsonPlan.Shape.Reach

/-!
Shapes to programs. The quotes of string-like members stand in the literals around them. Every
program built on the way is kept, also when the request fails later.
-/

namespace JsonPlan

/-- A computation that may fail and keeps what it has compiled. -/
abbrev PlanM (n : Nat) := ExceptT Error (StateM (PlanCache n))

/-- The name literal of a member, and its region around `body`. -/
def Builder.member {n : Nat} (b : Builder) (owner : String) (m : Member n) (lead : String)
    (body : List Action) : Builder :=
  (((b.literal lead).push (.enter (.member (m.ref owner)))).pushAll body).push (.leave .member)

namespace Schema

variable {n : Nat} (S : Schema n)

/-- Appends members to a composite and closes it. `quoteOpen` says that the value before still lacks
its closing quote. -/
def addMembers (child : Fin n → PlanM n Program) (owner : String) (b : Builder)
    (first quoteOpen : Bool) : List (Member n) → PlanM n Builder
  | [] => pure (b.literal (if quoteOpen then "\"\x7d" else "\x7d"))
  | m :: rest =>
    let lead := (if quoteOpen then "\"" else "") ++ (if first then "" else ",") ++ m.escapedName
    if (S m.shape).kind.isStringLike then do
      let leaf ← (S m.shape).unquotedLeaf
      addMembers child owner (b.member owner m (lead ++ "\"") [.write leaf]) false true rest
    else do
      let inner ← child m.shape
      addMembers child owner (b.member owner m lead inner.actions) false false rest

/-- The actions of a shape, given the programs of the shapes that it refers to. -/
def assemble (includeInherited : Bool) (child : Fin n → PlanM n Program) (s : Shape n) :
    PlanM n Builder :=
  match s.kind with
  | .primitive p => pure (Builder.empty.push (.write (p.leaf true)))
  | .string => pure (Builder.empty.push (.write (.string true)))
  | .optional inner => do return .region .nullable (← child inner)
  | .sequence element => do return .region .list (← child element)
  | .map key value =>
    match (S key).kind with
    | .string => do return .region .map (← child value)
    | _ => throw (.nonStringKey s.name (S key).name)
  | .composite owner members =>
    S.addMembers child owner (Builder.empty.literal "\x7b") true false
      (Member.order members includeInherited)
  | .unencodable => throw (.unsupportedShape s.name)

/-- The program of a shape that was reached by `path`. A kept program is used as it is. -/
def compile (includeInherited : Bool) (path : List (Fin n)) (t : Fin n) : PlanM n Program := do
  match (← get).get? ⟨t, includeInherited⟩ with
  | some p => pure p
  | none =>
    if _ : t ∈ path then throw (.recursiveShape (S t).name)
    else
      let b ← S.assemble includeInherited (fun u => compile includeInherited (t :: path) u) (S t)
      let p ← b.freeze
      modify fun c => c.install ⟨t, includeInherited⟩ p
      pure p
termination_by offPath path
decreasing_by exact offPath_cons_lt (by assumption)

/-- The program of a shape, compiled on the first request, and the cache after it. -/
def plan (c : PlanCache n) (t : Fin n) (includeInherited : Bool) :
    Except Error Program × PlanCache n :=
  (S.compile includeInherited [] t).run.run c

/-! ## Depth -/

/-- What compilation does for one shape, given what it does for the shapes that this one refers
to. -/
def compileOne (includeInherited : Bool) (child : Fin n → PlanM n Program) (path : List (Fin n))
    (t : Fin n) : PlanM n Program := do
  match (← get).get? ⟨t, includeInherited⟩ with
  | some p => pure p
  | none =>
    if t ∈ path then throw (.recursiveShape (S t).name)
    else
      let b ← S.assemble includeInherited child (S t)
      let p ← b.freeze
      modify fun c => c.install ⟨t, includeInherited⟩ p
      pure p

/-- Compilation that does something else in place of every call that is nested `depth` deep. -/
def compileWithin (cut : PlanM n Program) (includeInherited : Bool) :
    Nat → List (Fin n) → Fin n → PlanM n Program
  | 0, _, _ => cut
  | depth + 1, path, t =>
    S.compileOne includeInherited (fun u => compileWithin cut includeInherited depth (t :: path) u)
      path t

end Schema
end JsonPlan
