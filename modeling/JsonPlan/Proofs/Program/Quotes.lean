import JsonPlan.Json.Escape
import JsonPlan.Proofs.Program.Fusion

/-!
Who writes the quotes of a value. A leaf that leaves them out stands alone in the region of a
member, and the literals on both sides of this region have them. No other leaf leaves them out, and
no other literal has a quote to spare.
-/

namespace JsonPlan

/-- Whether a leaf writes quotes itself, if there are quotes around what it writes. -/
def Leaf.quoted? : Leaf → Option Bool
  | string quoted | char quoted | guid quoted => some quoted
  | int | bool | float | double | date => none

def Action.quoted? : Action → Option Bool
  | write leaf => leaf.quoted?
  | _ => none

/-- An action that stands between `before` and `after` is all there is in the region of a member.
The literal in front of the region ends with the member's name and an opening quote, and the literal
behind it starts with the closing quote. -/
def Enclosed (before after : List Action) : Prop :=
  ∃ front lead m delimiter follow rest,
    before = front ++
      [.literal (lead ++ Json.memberName m.name ++ "\""), .enter (.member m)] ∧
    after = .leave .member :: .literal ("\"" ++ delimiter ++ follow) :: rest ∧
    (delimiter = "," ∨ delimiter = "\x7d")

/-- In front of the region of `m` a literal ends with the member's name, and with one quote more
exactly if the region starts with a leaf that has no quotes of its own. -/
def Introduced (before : List Action) (m : MemberRef) (after : List Action) : Prop :=
  ∃ front lead quote next rest,
    before = front ++ [.literal (lead ++ Json.memberName m.name ++ quote)] ∧
    after = next :: rest ∧
    (quote = "\"" ∧ next.quoted? = some false ∨ quote = "" ∧ next.quoted? = none)

/-- What is promised about the quotes in a list of actions. -/
structure Folded (actions : List Action) : Prop where
  fused : Fused actions
  /-- Leaves are without quotes where the literals have them, and nowhere else. -/
  leaf {before after : List Action} {a : Action} {quoted : Bool} :
    actions = before ++ a :: after → a.quoted? = some quoted →
      (quoted = false ↔ Enclosed before after)
  member {before after : List Action} {m : MemberRef} :
    actions = before ++ .enter (.member m) :: after → Introduced before m after

/-! ## Places -/

/-- An action has the literals around it that it needs. -/
structure Placed (before : List Action) (a : Action) (after : List Action) : Prop where
  enclosed : a.quoted? = some false → Enclosed before after
  introduced : ∀ m, a = .enter (.member m) → Introduced before m after

namespace Placed

variable {before after : List Action} {a : Action}

/-- Most actions need nothing around them. -/
theorem anywhere (hquoted : a.quoted? ≠ some false) (hmember : ∀ m, a ≠ .enter (.member m)) :
    Placed before a after :=
  ⟨fun h => absurd h hquoted, fun m h => absurd h (hmember m)⟩

/-- What comes later does not matter. -/
theorem append (h : Placed before a after) (more : List Action) :
    Placed before a (after ++ more) := by
  refine ⟨?_, ?_⟩
  · intro hquoted
    obtain ⟨front, lead, m, delimiter, follow, rest, hbefore, rfl, hdelimiter⟩ :=
      h.enclosed hquoted
    exact ⟨front, lead, m, delimiter, follow, rest ++ more, hbefore, rfl, hdelimiter⟩
  · intro m hm
    obtain ⟨front, lead, quote, next, rest, hbefore, rfl, hquote⟩ := h.introduced m hm
    exact ⟨front, lead, quote, next, rest ++ more, hbefore, rfl, hquote⟩

end Placed

/-- Each action of a list that stands behind `before` has what it needs around it. -/
def Tidy (before : List Action) : List Action → Prop
  | [] => True
  | a :: after => Placed before a after ∧ Tidy (before ++ [a]) after

namespace Tidy

variable {before as bs : List Action}

theorem append (ha : Tidy before as) (hb : Tidy (before ++ as) bs) : Tidy before (as ++ bs) := by
  induction as generalizing before with
  | nil => simpa using hb
  | cons a as ih =>
      refine ⟨ha.1.append bs, ?_⟩
      apply ih ha.2
      simpa using hb

theorem placed {a : Action} (h : Tidy before (as ++ a :: bs)) : Placed (before ++ as) a bs := by
  induction as generalizing before with
  | nil => simpa using h.1
  | cons b as ih => simpa using ih h.2

theorem literal {text : String} (h : Tidy (before ++ [.literal text]) as) :
    Tidy before (.literal text :: as) :=
  ⟨.anywhere (by simp [Action.quoted?]) (by simp), h⟩

theorem leave {kind : Region} (h : Tidy (before ++ [.leave kind]) as) :
    Tidy before (.leave kind :: as) :=
  ⟨.anywhere (by simp [Action.quoted?]) (by simp), h⟩

/-- A region that is not a member's needs nothing but what its body needs. -/
theorem around {o : Opening} (ho : ∀ m, o ≠ .member m)
    (h : Tidy (before ++ [.enter o]) as) : Tidy before (.enter o :: (as ++ [.leave o.region])) := by
  refine ⟨.anywhere (by simp [Action.quoted?]) (by simpa using ho), ?_⟩
  apply h.append
  exact leave trivial

/-- A member whose quotes are in the literals on both sides. -/
theorem unquoted {m : MemberRef} {leaf : Leaf} {lead delimiter follow : String}
    (hleaf : leaf.quoted? = some false) (hdelimiter : delimiter = "," ∨ delimiter = "\x7d")
    (h : ∀ before, Tidy before (.literal ("\"" ++ delimiter ++ follow) :: as)) :
    Tidy before (.literal (lead ++ Json.memberName m.name ++ "\"") :: .enter (.member m) ::
      .write leaf :: .leave .member :: .literal ("\"" ++ delimiter ++ follow) :: as) := by
  apply literal
  refine ⟨⟨by simp [Action.quoted?], ?_⟩, ⟨?_, by simp⟩, leave (h _)⟩
  · intro m' hm
    obtain rfl := Opening.member.inj (Action.enter.inj hm)
    exact ⟨before, lead, "\"", .write leaf, _, rfl, rfl, .inl ⟨rfl, hleaf⟩⟩
  · intro _
    refine ⟨before, lead, m, delimiter, follow, as, ?_, rfl, hdelimiter⟩
    rw [List.append_assoc]
    rfl

/-- Any other member. -/
theorem member {m : MemberRef} {lead : String} {a : Action} (ha : a.quoted? = none)
    (hbody : ∀ before, Tidy before (a :: as)) (h : ∀ before, Tidy before bs) :
    Tidy before (.literal (lead ++ Json.memberName m.name) :: .enter (.member m) ::
      (a :: as ++ .leave .member :: bs)) := by
  apply literal
  refine ⟨⟨by simp [Action.quoted?], ?_⟩, (hbody _).append (leave (h _))⟩
  intro m' hm
  obtain rfl := Opening.member.inj (Action.enter.inj hm)
  exact ⟨before, lead, "", a, _, by rw [String.append_empty], rfl, .inr ⟨rfl, ha⟩⟩

end Tidy

/-- A fused list in which each action has what it needs keeps all promises: a leaf that is enclosed
comes directly behind the marker of its member, which tells it from those with quotes. -/
theorem Fused.folded {actions : List Action} (hfused : Fused actions) (h : Tidy [] actions) :
    Folded actions := by
  have hplaced : ∀ {before after a}, actions = before ++ a :: after → Placed before a after := by
    rintro before after a rfl
    exact h.placed
  refine ⟨hfused, ?_, fun hsplit => (hplaced hsplit).introduced _ rfl⟩
  intro before after a quoted hsplit hquoted
  refine ⟨fun hfalse => (hplaced hsplit).enclosed (by rw [hquoted, hfalse]), ?_⟩
  rintro ⟨front, lead, m, delimiter, follow, rest, rfl, -, -⟩
  have hregion : actions = (front ++ [.literal (lead ++ Json.memberName m.name ++ "\"")]) ++
      .enter (.member m) :: a :: after := by
    rw [hsplit]
    simp
  obtain ⟨_, _, _, next, _, _, hnext, hquote⟩ := (hplaced hregion).introduced m rfl
  obtain ⟨rfl, -⟩ := List.cons.inj hnext
  rcases hquote with ⟨-, hfalse⟩ | ⟨-, hnone⟩
  · exact Option.some.inj (hquoted.symm.trans hfalse)
  · cases hquoted.symm.trans hnone

end JsonPlan
