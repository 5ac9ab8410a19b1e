import JsonPlan.Program.Nesting

/-! Which markers faults tell of, and in which part of a list an estimate meets one. -/

namespace JsonPlan

/-- At a position a region begins that has an end, or such a region ends. -/
def Matched (actions : List Action) (index : Nat) : Prop :=
  ∃ start stop, matchingEnd actions start = .ok stop ∧ (index = start ∨ index = stop)

/-- The position and the marker that an estimate's fault tells of. -/
inductive Fault.Names : Fault → Nat → Action → Prop where
  | stray (region : Region) (index : Nat) : Names (.stray region index) index (.leave region)
  | unclosed (o : Opening) (index : Nat) : Names (.unclosed o.region index) index (.enter o)

/-- At the position that the fault tells of stands the marker that it tells of, and this marker is
at fault: an end marker that closes nothing, or a begin marker of a region that has no end. -/
def Fault.PointsInto (actions : List Action) (fault : Fault) : Prop :=
  ∃ index marker, fault.Names index marker ∧ actions[index]? = some marker ∧ ¬ Matched actions index

/-- `body` is all of `actions`, or the inside of a list or map in it, of a list or map in there and
so on, and begins at position `start` of `actions`. Nothing is wrong in front of any of them. -/
inductive Enters : List Action → Nat → List Action → Prop where
  | whole {actions : List Action} : Enters actions 0 actions
  | inside {front inner rest body : List Action} {o : Opening} {start : Nat}
      (before : Nested (front.filter Action.repeats)) (repeats : o.region.repeats)
      (ends : matchingEnd (front ++ .enter o :: (inner ++ .leave o.region :: rest)) front.length =
        .ok (front.length + 1 + inner.length)) :
      Enters inner start body →
      Enters (front ++ .enter o :: (inner ++ .leave o.region :: rest)) (front.length + 1 + start)
        body

end JsonPlan
