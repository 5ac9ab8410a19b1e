import JsonPlan.Layout.Fit
import JsonPlan.Layout.Tree
import JsonPlan.Layout.Visit
import JsonPlan.Proofs.Decimal.Fixed
import JsonPlan.Proofs.Decimal.Shortest
import JsonPlan.Proofs.Text.Plain

/-! Every scalar reads back as its tree. -/

namespace JsonPlan

open Decimal Binary Json

/-! ## Texts between quotes -/

theorem IsPlain.standsFor {c : Char} (h : IsPlain c) : StandsFor false c [c] :=
  .self h.1 h.2.2.1 h.2.2.2 (by simp)

theorem Plain.reads {s : String} (h : Plain s) : Reads ("\"" ++ s ++ "\"") (.string s) :=
  reads_string (f := fun c => [c]) (by simp) fun c hc => (h c hc).standsFor

/-- Slashes may be escaped. -/
def slashed (c : Char) : List Char := if c = '/' then ['\\', '/'] else [c]

theorem standsFor_slashed {c : Char} (h : IsPlain c) : StandsFor false c (slashed c) := by
  rw [slashed]
  split
  · rename_i hc
    subst hc
    exact .short rfl
  · exact h.standsFor

theorem flatMap_slashed_intNumeral (v : Int) :
    (intNumeral v).toList.flatMap slashed = (intNumeral v).toList := by
  have hself : ∀ c ∈ (intNumeral v).toList, slashed c = [c] := by
    intro c hc
    have hne : c ≠ '/' := by
      rintro rfl
      simpa [isDigit] using mem_intNumeral hc
    exact if_neg hne
  rw [List.flatMap_def, List.map_congr_left hself, ← List.flatMap_def, List.flatMap_singleton']

/-- A script reads the slashes as they are, with or without backslashes. -/
theorem reads_newtonsoft (v : Int) :
    Reads (String.join ("\"\\/Date(" :: (intChunks v ++ [")\\/\""])))
      (.string ("/Date(" ++ intNumeral v ++ ")/")) := by
  have htext : String.join ("\"\\/Date(" :: (intChunks v ++ [")\\/\""])) =
      "\"" ++ ("\\/Date(" ++ intNumeral v ++ ")\\/") ++ "\"" := by
    rw [← String.toList_inj]
    simp [intNumeral, String.toList_join]
  have hplain : Plain ("/Date(" ++ intNumeral v ++ ")/") := by
    rw [plain_append, plain_append]
    exact ⟨⟨by decide, plain_intNumeral v⟩, by decide⟩
  rw [htext]
  refine reads_string (f := slashed) ?_ fun c hc => standsFor_slashed (hplain c hc)
  simp [flatMap_slashed_intNumeral, slashed]

/-! ## Floats -/

theorem reads_fixed (p : Precision) {d : Datum} (h : d.isFinite = true) :
    Reads (fixed p d) (.ofFloat p d) := by
  cases d with
  | nan => cases h
  | infinite negative => cases h
  | finite negative m q =>
      rw [fixed, fixedChunks, ofFloat]
      by_cases hzero : (m : Rat) * pow2 q = 0 ∨ p.zeroBelow.exceeds (m * pow2 q) = true
      · simp only [if_pos hzero]
        rw [show String.join ["0"] = intNumeral 0 by
          simp [intNumeral, intChunks, numeral, digits_of_lt]; rfl]
        exact reads_int 0
      · by_cases hlarge : splitLimit ≤ (m : Rat) * pow2 q
        · simp only [if_neg hzero, if_pos hlarge]
          exact (spells_digits _).reads_signed negative (toList_join_naturalChunks hlarge negative)
        · simp only [if_neg hzero, if_neg hlarge]
          have hfits : (Split.ofMagnitude (m * pow2 q) (p.scale (m * pow2 q))).Fits :=
            Split.fits_ofMagnitude (Nat.min_le_left _ _)
          exact hfits.reads_chunks negative

theorem isFinite_widen (f : Format) (d : Datum) : (d.widen f).isFinite = d.isFinite := by
  cases d <;> rfl

/-! ## Leaves -/

variable {style : Style} {v : View}

theorem join_between (s : String) : String.join ["\"", s, "\""] = "\"" ++ s ++ "\"" := by
  simp [String.append_assoc]

/-- A date as a text is plain between its quotes, and as a number an integer. -/
theorem reads_date (d : Calendar.Instant) (f : DateFormat) (jsonp : Bool) :
    Reads (String.join (Scalar.date d f)) (Leaf.tree ⟨f, jsonp⟩ .date (.date d)) := by
  cases f with
  | iso8601 =>
      rw [Scalar.date, join_between]
      exact (Calendar.plain_iso d).reads
  | milliseconds => exact reads_int d.milliseconds
  | seconds => exact reads_int d.seconds
  | newtonsoft => exact reads_newtonsoft d.milliseconds
  | rfc1123 =>
      rw [Scalar.date, join_between]
      exact (Calendar.plain_rfc1123 d).reads

/-- A leaf with its own quotes reads as the tree of what it is made for. -/
theorem reads_of_matches {a : Atom} (h : (a.leaf true).matches v = true)
    (hfinite : v.isFinite = true) :
    Reads ((a.leaf true).text style v) ((a.leaf true).tree style v) := by
  cases a with
  | string =>
      cases v with
      | str s =>
          change Reads (String.join (quotedChunks style.jsonp s)) (.string s)
          rw [join_quotedChunks]
          exact reads_escaped style.jsonp s
      | _ => simp [Atom.leaf, Leaf.matches] at h
  | primitive p =>
      cases p with
      | bool =>
          cases v with
          | bool b =>
              change Reads (String.join [if b then "true" else "false"]) (.bool b)
              rw [String.join_cons, String.join_nil, String.append_empty]
              exact reads_bool b
          | _ => simp [Atom.leaf, Primitive.leaf, Leaf.matches] at h
      | int =>
          cases v with
          | int i => exact reads_int i.toInt
          | uint i =>
              have hchunks : Scalar.uint i = intChunks i.toNat := by
                simp [Scalar.uint, intChunks]
              change Reads (String.join (Scalar.uint i)) (.number ⟨i.toNat, 0⟩)
              rw [hchunks]
              exact reads_int i.toNat
          | _ => simp [Atom.leaf, Primitive.leaf, Leaf.matches] at h
      | float =>
          cases v with
          | float x => exact reads_fixed .single (by rw [isFinite_widen]; exact hfinite)
          | _ => simp [Atom.leaf, Primitive.leaf, Leaf.matches] at h
      | double =>
          cases v with
          | double x => exact reads_fixed .double hfinite
          | _ => simp [Atom.leaf, Primitive.leaf, Leaf.matches] at h
      | char =>
          cases v with
          | char c =>
              change Reads (String.join (quotedChunks style.jsonp c.toString))
                (.string c.toString)
              rw [join_quotedChunks]
              exact reads_escaped style.jsonp c.toString
          | _ => simp [Atom.leaf, Primitive.leaf, Leaf.matches] at h
      | guid =>
          cases v with
          | guid g =>
              change Reads (String.join ["\"", g.text, "\""]) (.string g.text)
              rw [join_between]
              exact g.plain_text.reads
          | _ => simp [Atom.leaf, Primitive.leaf, Leaf.matches] at h
      | date =>
          cases v with
          | date d => exact reads_date d style.dateFormat style.jsonp
          | _ => simp [Atom.leaf, Primitive.leaf, Leaf.matches] at h

theorem Leaf.tree_null (leaf : Leaf) : leaf.tree style .null = .null := by
  cases leaf <;> rfl

theorem reads_leaf {a : Atom} (h : v.isNull = true ∨ (a.leaf true).matches v = true)
    (hfinite : v.isFinite = true) :
    Reads ((a.leaf true).text style v) ((a.leaf true).tree style v) := by
  rcases h with hnull | h
  · rw [View.eq_null_of_isNull hnull, Leaf.text_null, Leaf.tree_null]
    exact reads_null
  · exact reads_of_matches h hfinite

end JsonPlan
