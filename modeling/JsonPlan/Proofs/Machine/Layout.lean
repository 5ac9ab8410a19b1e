import JsonPlan.Proofs.Machine.Run
import JsonPlan.Proofs.Output.Trace

/-! What the program of a layout writes, in terms of the programs of its parts. -/

namespace JsonPlan.Layout

/-- A run of a layout's actions; `quoted` says whether an atom writes its own quotes. -/
def trace (style : Style) (quoted : Bool) (L : Layout) (v : View) : Trace :=
  run style (withSpans (L.actions quoted)) v

variable {style : Style} {quoted : Bool} {v : View}

theorem trace_atom (a : Atom) : trace style quoted (.atom a) v = (a.leaf quoted).trace style v := by
  rw [trace, actions_atom, withSpans_plain rfl rfl .nil, run_write, withSpans_nil, run_nil,
    Trace.append_done]

theorem trace_optional (inner : Layout) :
    trace style quoted (.optional inner) v =
      Opening.nullable.trace style (trace style true inner) v := by
  rw [trace, actions_optional, run_around (nested_actions inner true)]
  rfl

theorem trace_sequence (element : Layout) :
    trace style quoted (.sequence element) v =
      Opening.list.trace style (trace style true element) v := by
  rw [trace, actions_sequence, run_around (nested_actions element true)]
  rfl

theorem trace_map (value : Layout) :
    trace style quoted (.map value) v = Opening.map.trace style (trace style true value) v := by
  rw [trace, actions_map, run_around (nested_actions value true)]
  rfl

/-! ## Composites -/

/-- What the region of a member writes. -/
def memberTrace (style : Style) (owner : String) (v : View) (m : Place × Layout) : Trace :=
  (Opening.member (m.1.ref owner)).trace style (trace style false m.2) v

/-- The text of a member: its name, and its value between the quotes around its region. -/
def memberText (style : Style) (owner : String) (v : View) (m : Place × Layout) : String :=
  Json.memberName m.1.name ++ m.2.quote ++ (memberTrace style owner v m).text ++ m.2.quote

/-- A run of the last members of a composite. -/
def membersTrace (style : Style) (owner : String) (v : View) (pending separator : String)
    (members : List (Place × Layout)) : Trace :=
  run style (withSpans (memberActions owner pending separator (members.map part))) v

variable {owner : String}

theorem nested_parts (owner : String) (members : List (Place × Layout))
    (pending separator : String) :
    Nested (memberActions owner pending separator (members.map part)) := by
  apply nested_memberActions
  intro p hp
  obtain ⟨m, _, rfl⟩ := List.mem_map.mp hp
  exact nested_actions m.2 false

theorem membersTrace_nil (pending separator : String) :
    membersTrace style owner v pending separator [] = .emit [pending ++ "\x7d"] := by
  rw [membersTrace, List.map_nil, memberActions, withSpans_plain rfl rfl .nil, run_literal,
    withSpans_nil, run_nil, Trace.append_done]

theorem membersTrace_cons (pending separator : String) (m : Place × Layout)
    (rest : List (Place × Layout)) :
    membersTrace style owner v pending separator (m :: rest) =
      .emit [pending ++ separator ++ Json.memberName m.1.name ++ m.2.quote] ++
        (memberTrace style owner v m ++ membersTrace style owner v m.2.quote "," rest) := by
  have hbody := nested_actions m.2 false
  have hrest := nested_parts owner rest m.2.quote ","
  have hsteps := withSpans_plain
    (a := .literal (pending ++ separator ++ Json.memberName m.1.name ++ m.2.quote)) rfl rfl
    (.region (o := .member (m.1.ref owner)) hbody hrest)
  have hrun := congrArg (fun steps => run style steps v) hsteps
  simp only [run_literal, run_region hbody hrest] at hrun
  exact hrun

theorem failure_membersTrace {pending separator : String} {members : List (Place × Layout)} :
    (membersTrace style owner v pending separator members).failure = none ↔
      ∀ m ∈ members, (memberTrace style owner v m).failure = none := by
  induction members generalizing pending separator with
  | nil => simp [membersTrace_nil]
  | cons m rest ih => simp [membersTrace_cons, ih]

/-- The members after the first one, each behind a comma, and the closing brace. -/
theorem text_membersTrace {pending : String} {members : List (Place × Layout)}
    (h : ∀ m ∈ members, (memberTrace style owner v m).failure = none) :
    (membersTrace style owner v pending "," members).text =
      pending ++ String.join (members.map fun m => "," ++ memberText style owner v m) ++
        "\x7d" := by
  induction members generalizing pending with
  | nil => simp [membersTrace_nil]
  | cons m rest ih =>
      rw [membersTrace_cons, Trace.text_append rfl, Trace.text_append (h m (by simp)),
        ih fun u hu => h u (by simp [hu]), List.map_cons, String.join_cons, memberText]
      simp [String.append_assoc]

theorem trace_composite (members : List (Place × Layout)) :
    trace style quoted (.composite owner members) v =
      membersTrace style owner v "\x7b" "" members := by
  rw [trace, actions_composite, membersTrace]

theorem failure_trace_composite {members : List (Place × Layout)} :
    (trace style quoted (.composite owner members) v).failure = none ↔
      ∀ m ∈ members, (memberTrace style owner v m).failure = none := by
  rw [trace_composite, failure_membersTrace]

theorem text_trace_composite {members : List (Place × Layout)}
    (h : ∀ m ∈ members, (memberTrace style owner v m).failure = none) :
    (trace style quoted (.composite owner members) v).text =
      enclosed "\x7b" "\x7d" (members.map (memberText style owner v)) := by
  rw [trace_composite]
  cases members with
  | nil =>
      rw [membersTrace_nil]
      rfl
  | cons m rest =>
      rw [membersTrace_cons, Trace.text_append rfl, Trace.text_append (h m (by simp)),
        text_membersTrace fun u hu => h u (by simp [hu]), List.map_cons, enclosed,
        intercalate_cons, List.map_map, memberText]
      simp [String.append_assoc, Function.comp_def]

/-- A member whose value is written is there, in an object of its owner. -/
theorem memberTrace_object {type : String} {fields : List View} {w : View}
    {m : Place × Layout} (htype : type = owner) (hw : fields[m.1.slot]? = some w) :
    memberTrace style owner (.object type fields) m = trace style false m.2 w := by
  simp [memberTrace, Opening.trace, Place.ref, htype, hw]

end JsonPlan.Layout
