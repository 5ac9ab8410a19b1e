import JsonPlan.Proofs.Encoder
import JsonPlan.Proofs.Layout.Own

/-!
Documents with and without inherited members. What is written without them is what is written with
them, less the inherited members at every depth.
-/

namespace JsonPlan

variable {n : Nat} {S : Schema n}

theorem PlanCache.Reachable.plan_own {c : PlanCache n} (hc : c.Reachable S) {t : Fin n}
    {L : Layout} (h : S.layout true t = .ok L) :
    (S.plan c t false).1 = .ok L.own.program := by
  rw [(Schema.plan_eq hc.sound t).1,
    Schema.layout_eq_ok_iff.mpr (Schema.layout_eq_ok_iff.mp h).own]
  rfl

/-! ## An example -/

namespace Schema

/-- A board of notes. Its title is inherited, and so is the number of each note. -/
def board : Schema 5
  | 0 => ⟨"Board", .composite "Board"
      [⟨"title", .field 0, true, 4, 0⟩, ⟨"notes", .field 24, false, 1, 1⟩]⟩
  | 1 => ⟨"Vec", .sequence 2⟩
  | 2 => ⟨"Note", .composite "Note"
      [⟨"text", .field 8, false, 4, 0⟩, ⟨"number", .field 0, true, 3, 1⟩]⟩
  | 3 => ⟨"i64", .primitive .int⟩
  | 4 => ⟨"String", .string⟩

def boardRoot : Fin 5 := 0

def boardLayout : Layout :=
  .composite "Board" [(⟨"title", 0, true⟩, .atom .string),
    (⟨"notes", 1, false⟩, .sequence (.composite "Note"
      [(⟨"number", 1, true⟩, .atom (.primitive .int)), (⟨"text", 0, false⟩, .atom .string)]))]

theorem unfolds_board : board.Unfolds true boardRoot boardLayout := by
  have horder : Member.order [⟨"text", .field 8, false, 4, 0⟩, ⟨"number", .field 0, true, 3, 1⟩] true =
      [(⟨"number", .field 0, true, 3, 1⟩ : Member 5), ⟨"text", .field 8, false, 4, 0⟩] := by
    decide
  have hnote : board.Unfolds true 2 (.composite "Note"
      [(⟨"number", 1, true⟩, .atom (.primitive .int)), (⟨"text", 0, false⟩, .atom .string)]) := by
    refine .composite rfl (by rw [horder]; rfl) ?_
    rw [horder]
    simp only [List.zip_cons_cons, List.zip_nil_right, List.forall_mem_cons]
    exact ⟨.primitive rfl, .string rfl, by simp⟩
  have horder' : Member.order [⟨"title", .field 0, true, 4, 0⟩, ⟨"notes", .field 24, false, 1, 1⟩] true =
      [(⟨"title", .field 0, true, 4, 0⟩ : Member 5), ⟨"notes", .field 24, false, 1, 1⟩] := by
    decide
  refine .composite rfl (by rw [horder']; rfl) ?_
  rw [horder']
  simp only [List.zip_cons_cons, List.zip_nil_right, List.forall_mem_cons]
  exact ⟨.string rfl, .sequence rfl hnote, by simp⟩

/-- A board with one note. -/
def boardView : View := .object "Board" [.str "t", .seq [.object "Note" [.str "a", .int 1]]]

theorem conforms_board : boardLayout.conforms boardView := by
  simp [boardLayout, boardView, Layout.conforms_composite, Layout.conforms_sequence,
    Layout.conforms_atom, Atom.leaf, Primitive.leaf, Leaf.matches]

theorem finiteFloats_board : boardLayout.FiniteFloats boardView := by
  intro a w h
  cases h with
  | member mem read h =>
      simp only [List.mem_cons, List.not_mem_nil, or_false] at mem
      rcases mem with rfl | rfl
      · obtain rfl := Option.some.inj read
        cases h
        rfl
      · obtain rfl := Option.some.inj read
        cases h with
        | item mem h =>
            obtain rfl := List.mem_singleton.mp mem
            cases h with
            | member mem read h =>
                simp only [List.mem_cons, List.not_mem_nil, or_false] at mem
                rcases mem with rfl | rfl <;> obtain rfl := Option.some.inj read <;> cases h <;> rfl

end Schema

namespace Encoder

variable {e : Encoder n} {c : PlanCache n} {t : Fin n}

/-- A type that has a program with inherited members has one without them. Of a conforming value the
two documents read back as a tree and as what is left of this tree without the inherited members, at
every depth. -/
theorem parse_toText_own (hc : c.Reachable S) (hp : (S.plan c t true).1 = .ok e.program) :
    ∃ L, S.layout true t = .ok L ∧ ∀ c' : PlanCache n, c'.Reachable S →
      ∃ p, (S.plan c' t false).1 = .ok p ∧
        ∀ e' : Encoder n, e'.program = p → e'.options.dateFormat = e.options.dateFormat →
          ∀ v sizes sizes', L.conforms v → L.FiniteFloats v →
            ∃ document document',
              (e.toText v sizes).1 = .ok (e.options.wrap document) ∧
              (e'.toText v sizes').1 = .ok (e'.options.wrap document') ∧
              Json.parse document = some (L.tree e.style v) ∧
              Json.parse document' = (Json.parse document).map L.prune := by
  obtain ⟨L, hL, hprogram⟩ := hc.plan_eq_ok hp
  refine ⟨L, hL, fun c' hc' => ⟨_, hc'.plan_own hL, fun e' hprogram' hformat => ?_⟩⟩
  intro v sizes sizes' hconforms hfinite
  obtain ⟨document, htext, hparse⟩ := exists_document_of_conforms hprogram sizes hconforms hfinite
  obtain ⟨document', htext', hparse'⟩ := exists_document_of_conforms hprogram' sizes'
    (Layout.conforms_own hconforms) (Layout.finiteFloats_own hfinite)
  have hformats : e'.style.dateFormat = e.style.dateFormat := hformat
  refine ⟨document, document', htext, htext', hparse, ?_⟩
  rw [hparse', hparse, Layout.tree_congr hformats, ← Layout.prune_tree e.style hconforms]
  rfl

/-- An encoder of boards. -/
def boardEncoder (includeInherited : Bool) : Encoder 5 :=
  let options := { Options.default with includeInherited }
  let layout := if includeInherited then Schema.boardLayout else Schema.boardLayout.own
  ⟨layout.program, options, ⟨0, options.flags⟩, ⟨Schema.boardRoot, includeInherited⟩⟩

theorem parse_toText_own_board :
    ∃ document document',
      ((boardEncoder true).toText Schema.boardView .empty).1 = .ok document ∧
      ((boardEncoder false).toText Schema.boardView .empty).1 = .ok document' ∧
      Json.parse document = some (.object [("title", .string "t"),
        ("notes", .array [.object [("number", .number ⟨1, 0⟩), ("text", .string "a")]])]) ∧
      Json.parse document' = some (.object [("notes", .array [.object [("text", .string "a")]])]) := by
  have hlayout := Schema.layout_eq_ok_iff.mpr Schema.unfolds_board
  have hp : (Schema.board.plan .empty Schema.boardRoot true).1 = .ok (boardEncoder true).program := by
    rw [(Schema.plan_eq (PlanCache.sound_empty _) Schema.boardRoot).1, hlayout]
    rfl
  obtain ⟨L, hL, hown⟩ := parse_toText_own .empty hp
  obtain rfl : L = Schema.boardLayout := by simpa [hlayout] using hL.symm
  obtain ⟨p, hp', hdocuments⟩ := hown .empty .empty
  have hprogram : (boardEncoder false).program = p := by
    rw [PlanCache.Reachable.empty.plan_own hlayout] at hp'
    exact Except.ok.inj hp'
  obtain ⟨document, document', htext, htext', hparse, hparse'⟩ :=
    hdocuments (boardEncoder false) hprogram rfl Schema.boardView .empty .empty
      Schema.conforms_board Schema.finiteFloats_board
  have htree : Schema.boardLayout.tree (boardEncoder true).style Schema.boardView =
      .object [("title", .string "t"),
        ("notes", .array [.object [("number", .number ⟨1, 0⟩), ("text", .string "a")]])] := by
    simp [Schema.boardLayout, Schema.boardView, Layout.tree, Atom.leaf, Primitive.leaf, Leaf.tree,
      View.slot, Json.ofInt]
  rw [htree] at hparse
  refine ⟨document, document', htext, htext', hparse, ?_⟩
  rw [hparse', hparse]
  simp [Schema.boardLayout, Layout.prune]

end Encoder
end JsonPlan
