import JsonPlan.Program.Cost

/-!
Correct nesting of markers as a grammar, and what it says of a list: how far its regions reach, and
the exact cost.
-/

namespace JsonPlan

/-- The words in which every end marker closes the innermost open region of its own kind. -/
inductive Nested : List Action → Prop where
  | nil : Nested []
  | plain {a : Action} {rest : List Action} (ho : a.opens = none) (hc : a.closes = none) :
      Nested rest → Nested (a :: rest)
  | region {o : Opening} {body rest : List Action} :
      Nested body → Nested rest → Nested (.enter o :: (body ++ .leave o.region :: rest))

/-- The region opened at `i` is closed at `j`: between the two markers stands a nested word. -/
inductive ClosedBy : List Action → Nat → Nat → Prop where
  | intro {before body after : List Action} {o : Opening} :
      Nested body → ClosedBy (before ++ .enter o :: (body ++ .leave o.region :: after))
        before.length (before.length + body.length + 1)

/-! ## Reaches -/

/-- For each action from position `index` on how far its region reaches, zero if it opens none; then
the positions of the end markers that close regions opened further left. Read from the right, the
nearest unclaimed end is the one that belongs to a begin marker. -/
def spansFrom (index : Nat) : List Action → List Nat × List Nat
  | [] => ([], [])
  | a :: rest =>
    let (spans, ends) := spansFrom (index + 1) rest
    match a.opens, a.closes with
    | some _, _ =>
      match ends with
      | [] => (0 :: spans, [])
      | e :: outer => ((e - index) :: spans, outer)
    | none, some _ => (0 :: spans, index :: ends)
    | none, none => (0 :: spans, ends)

/-- The distance from each action to the end of its region. -/
def spans (actions : List Action) : List Nat := (spansFrom 0 actions).1

/-- Each action with the reach of its region. -/
def withSpans (actions : List Action) : List Step := List.zipWith Step.mk actions (spans actions)

/-! ## Costs -/

/-- Whether an action is a marker of a list or a map. -/
def Action.repeats (a : Action) : Bool :=
  (a.opens.map Region.repeats).getD false || (a.closes.map Region.repeats).getD false

/-- The cost of an action that is not such a marker. -/
def CostTable.actionCost (t : CostTable) : Action → Nat
  | .literal text => text.utf8ByteSize
  | .write leaf => t.leafCost leaf
  | _ => 0

/-- The unbounded cost of an action list: a list or map counts its body once for each assumed entry,
and its overhead. -/
inductive CostTable.Costs (t : CostTable) : List Action → Nat → Prop where
  | nil : Costs t [] 0
  | plain {a : Action} {rest : List Action} {x : Nat} (h : a.repeats = false) :
      Costs t rest x → Costs t (a :: rest) (t.actionCost a + x)
  | region {o : Opening} {body rest : List Action} {b x : Nat} (h : o.region.repeats) :
      Costs t body b → Costs t rest x →
      Costs t (.enter o :: (body ++ .leave o.region :: rest)) (t.fanOut * b + t.overhead + x)

end JsonPlan
