import JsonPlan.Json.Escape
import Mathlib.Data.List.Chain
import Mathlib.Data.String.Basic
import Mathlib.Tactic.SplitIfs

/-!
The parts of an escaped text. A run begins and ends where characters do, and two runs never follow
each other.
-/

namespace JsonPlan.Json

open String (utf8Len)

variable {jsonp : Bool} {s : String}

/-! ## Runs -/

theorem Piece.between_append (front run : List Char) :
    Piece.between ⟨utf8Len front⟩ ⟨utf8Len (front ++ run)⟩ =
      if run = [] then [] else [.run ⟨utf8Len front⟩ ⟨utf8Len (front ++ run)⟩] := by
  by_cases hrun : run = []
  · have hlt : ¬ (⟨utf8Len front⟩ : String.Pos.Raw) < ⟨utf8Len (front ++ run)⟩ := by
      simp [String.Pos.Raw.lt_iff, hrun]
    rw [if_pos hrun, between, if_neg hlt]
  · have hlt : (⟨utf8Len front⟩ : String.Pos.Raw) < ⟨utf8Len (front ++ run)⟩ := by
      simpa [String.Pos.Raw.lt_iff, Nat.pos_iff_ne_zero] using hrun
    rw [if_neg hrun, between, if_pos hlt]

theorem extract_append {front run rest : List Char} (h : s.toList = front ++ run ++ rest) :
    String.Pos.Raw.extract s ⟨utf8Len front⟩ ⟨utf8Len (front ++ run)⟩ = .ofList run := by
  rw [← String.ofList_toList (s := s), h, String.utf8Len_append]
  exact String.extract_of_valid front run rest

theorem chunks_between {front run rest : List Char} (h : s.toList = front ++ run ++ rest) :
    (Piece.between ⟨utf8Len front⟩ ⟨utf8Len (front ++ run)⟩).flatMap (Piece.chunks s) =
      if run = [] then [] else [.ofList run] := by
  rw [Piece.between_append]
  split
  · rfl
  · rw [List.flatMap_singleton, Piece.chunks, extract_append h]

theorem isValid_utf8Len {front rest : List Char} (h : s.toList = front ++ rest) :
    String.Pos.Raw.IsValid s ⟨utf8Len front⟩ := by
  rw [String.Pos.Raw.isValid_iff_exists_append]
  refine ⟨.ofList front, .ofList rest, ?_, (String.rawEndPos_ofList front).symm⟩
  rw [← String.ofList_append, ← h, String.ofList_toList]

/-! ## Places -/

/-- The place behind a character. -/
theorem utf8Len_append_singleton (cs : List Char) (c : Char) :
    (⟨utf8Len cs⟩ : String.Pos.Raw) + c = ⟨utf8Len (cs ++ [c])⟩ := by
  apply String.Pos.Raw.ext
  simp [String.Pos.Raw.byteIdx_add_char]

theorem rawEndPos_eq (s : String) : s.rawEndPos = ⟨utf8Len s.toList⟩ := by
  rw [← String.rawEndPos_ofList, String.ofList_toList]

/-- Induction along the characters of a text. Up to `front` all is handed over, and `run` has come
since. -/
theorem pieces_induction (jsonp : Bool) (s : String)
    {motive : (front run rest : List Char) → List Piece → Prop}
    (stop : ∀ front run, s.toList = front ++ run ++ [] →
      motive front run [] (Piece.between ⟨utf8Len front⟩ ⟨utf8Len (front ++ run)⟩))
    (plain : ∀ front run c rest pieces, s.toList = front ++ run ++ c :: rest →
      escape? jsonp c = none → motive front (run ++ [c]) rest pieces →
      motive front run (c :: rest) pieces)
    (escape : ∀ front run c rest chunks pieces, s.toList = front ++ run ++ c :: rest →
      escape? jsonp c = some chunks → motive (front ++ run ++ [c]) [] rest pieces →
      motive front run (c :: rest)
        (Piece.between ⟨utf8Len front⟩ ⟨utf8Len (front ++ run)⟩ ++ .escape c chunks :: pieces)) :
    motive [] [] s.toList (pieces jsonp s) := by
  have hfrom (front run rest : List Char) (h : s.toList = front ++ run ++ rest) :
      motive front run rest
        (piecesFrom jsonp s ⟨utf8Len front⟩ ⟨utf8Len (front ++ run)⟩ rest) := by
    induction rest generalizing front run with
    | nil =>
        rw [piecesFrom, rawEndPos_eq, h, List.append_nil]
        exact stop front run h
    | cons c rest ih =>
        rw [piecesFrom, utf8Len_append_singleton]
        cases hc : escape? jsonp c with
        | none =>
            apply plain _ _ _ _ _ h hc
            rw [List.append_assoc]
            exact ih front (run ++ [c]) (by simp [h])
        | some chunks =>
            apply escape _ _ _ _ _ _ h hc
            have hrest := ih (front ++ run ++ [c]) [] (by simp [h])
            rwa [List.append_nil] at hrest
  exact hfrom [] [] s.toList rfl

/-! ## Parts -/

/-- What a piece stands for: a run of characters that are not escaped, or one that is. -/
inductive Piece.Covers (jsonp : Bool) (s : String) : Piece → Prop where
  | run {front run rest : List Char} (split : s.toList = front ++ run ++ rest) (some : run ≠ [])
      (plain : ∀ c ∈ run, escape? jsonp c = none) :
      Covers jsonp s (.run ⟨utf8Len front⟩ ⟨utf8Len (front ++ run)⟩)
  | escape {c : Char} {chunks : List String} (mem : c ∈ s.toList)
      (escaped : escape? jsonp c = some chunks) : Covers jsonp s (.escape c chunks)

theorem Piece.covers_between {front run rest : List Char} (h : s.toList = front ++ run ++ rest)
    (hrun : ∀ c ∈ run, escape? jsonp c = none) :
    ∀ p ∈ Piece.between ⟨utf8Len front⟩ ⟨utf8Len (front ++ run)⟩, p.Covers jsonp s := by
  intro p hp
  rw [Piece.between_append] at hp
  split_ifs at hp with hempty
  · cases hp
  · obtain rfl := List.mem_singleton.mp hp
    exact .run h hempty hrun

theorem covers_pieces (jsonp : Bool) (s : String) : ∀ p ∈ pieces jsonp s, p.Covers jsonp s := by
  have hcovers := pieces_induction jsonp s
    (motive := fun _ run _ pieces =>
      (∀ c ∈ run, escape? jsonp c = none) → ∀ p ∈ pieces, p.Covers jsonp s) ?_ ?_ ?_
  · exact hcovers (by simp)
  · intro front run h hrun
    exact Piece.covers_between h hrun
  · intro front run c rest pieces _ hc ih hrun
    apply ih
    intro d hd
    rcases List.mem_append.mp hd with hd | hd
    · exact hrun d hd
    · obtain rfl := List.mem_singleton.mp hd
      exact hc
  · intro front run c rest chunks pieces h hc ih hrun p hp
    rcases List.mem_append.mp hp with hp | hp
    · exact Piece.covers_between h hrun p hp
    · rcases List.mem_cons.mp hp with rfl | hp
      · exact .escape (by simp [h]) hc
      · exact ih (by simp) p hp

/-! ## Texts -/

theorem toList_join_pieces (jsonp : Bool) (s : String) :
    (String.join ((pieces jsonp s).flatMap (Piece.chunks s))).toList =
      s.toList.flatMap (escapeChars jsonp) := by
  have hbetween {front run rest : List Char} (h : s.toList = front ++ run ++ rest) :
      ((Piece.between ⟨utf8Len front⟩ ⟨utf8Len (front ++ run)⟩).flatMap
        (Piece.chunks s)).flatMap String.toList = run := by
    rw [chunks_between h]
    split_ifs with hrun
    · exact hrun.symm
    · simp
  have htext := pieces_induction jsonp s
    (motive := fun _ run rest pieces =>
      (pieces.flatMap (Piece.chunks s)).flatMap String.toList =
        run ++ rest.flatMap (escapeChars jsonp)) ?_ ?_ ?_
  · rw [String.toList_join]
    exact htext
  · intro front run h
    rw [hbetween h, List.flatMap_nil, List.append_nil]
  · intro front run c rest pieces _ hc ih
    rw [ih, List.flatMap_cons, escapeChars, hc, List.append_assoc]
  · intro front run c rest chunks pieces h hc ih
    simp only [List.flatMap_append, List.flatMap_cons, hbetween h, ih, escapeChars, hc,
      Piece.chunks, String.toList_join, List.nil_append]

/-! ## Neighbours -/

/-- A run of characters that stand for themselves. -/
def Piece.isRun : Piece → Bool
  | run .. => true
  | escape .. => false

/-- Two pieces of which one is an escape. -/
def Piece.Apart (p q : Piece) : Prop := ¬ (p.isRun ∧ q.isRun)

/-- A run goes on to the next escape. -/
theorem isChain_piecesFrom (start place : String.Pos.Raw) (cs : List Char) :
    (piecesFrom jsonp s start place cs).IsChain Piece.Apart := by
  induction cs generalizing start place with
  | nil =>
      rw [piecesFrom, Piece.between]
      split <;> simp
  | cons c cs ih =>
      rw [piecesFrom]
      cases escape? jsonp c with
      | none => exact ih start (place + c)
      | some chunks =>
          have hescape : (.escape c chunks :: piecesFrom jsonp s (place + c) (place + c) cs :
              List Piece).IsChain Piece.Apart :=
            .cons (ih _ _) fun _ _ h => Bool.false_ne_true h.1
          simp only [Piece.between]
          split
          · exact .cons_cons (fun h => Bool.false_ne_true h.2) hescape
          · exact hescape

theorem isChain_pieces (jsonp : Bool) (s : String) : (pieces jsonp s).IsChain Piece.Apart :=
  isChain_piecesFrom 0 0 s.toList

/-- Without a character to escape there is one run up to the end, or nothing. -/
theorem pieces_of_plain (h : ∀ c ∈ s.toList, escape? jsonp c = none) :
    pieces jsonp s = Piece.between 0 s.rawEndPos := by
  have hfrom (place : String.Pos.Raw) (cs : List Char) (hcs : ∀ c ∈ cs, escape? jsonp c = none) :
      piecesFrom jsonp s 0 place cs = Piece.between 0 s.rawEndPos := by
    induction cs generalizing place with
    | nil => rfl
    | cons c cs ih =>
        rw [piecesFrom, hcs c List.mem_cons_self]
        exact ih (place + c) fun d hd => hcs d (List.mem_cons_of_mem c hd)
  exact hfrom 0 s.toList h

/-! ## Promises -/

theorem Piece.Covers.isValid {start stop : String.Pos.Raw}
    (h : (Piece.run start stop).Covers jsonp s) :
    start.IsValid s ∧ stop.IsValid s ∧ start < stop := by
  cases h with
  | @run front run rest split some plain =>
      have hsplit := split.trans (List.append_assoc front run rest)
      refine ⟨isValid_utf8Len hsplit, isValid_utf8Len split, ?_⟩
      simpa [String.Pos.Raw.lt_iff, Nat.pos_iff_ne_zero] using some

theorem Piece.Covers.plain {start stop : String.Pos.Raw}
    (h : (Piece.run start stop).Covers jsonp s) :
    ∀ c ∈ (start.extract s stop).toList, escape? jsonp c = none := by
  cases h with
  | run split some plain =>
      rw [extract_append split, String.toList_ofList]
      exact plain

theorem escape?_chunks (jsonp : Bool) (c : Char) :
    ∀ chunks ∈ escape? jsonp c, chunks ≠ [] ∧ ∀ chunk ∈ chunks, chunk ≠ "" := by
  fun_cases escape? jsonp c with
  | case1 | case2 | case3 | case4 | case5 | case6 | case7 | case8 | case9 =>
      rintro _ ⟨⟩
      exact ⟨List.cons_ne_nil _ _, List.forall_mem_singleton.mpr (by decide)⟩
  | case10 =>
      rintro _ ⟨⟩
      exact ⟨List.cons_ne_nil _ _, by simp [Char.toString]⟩
  | case11 => rintro _ ⟨⟩

theorem Piece.Covers.chunks {p : Piece} (h : p.Covers jsonp s) :
    p.chunks s ≠ [] ∧ ∀ chunk ∈ p.chunks s, chunk ≠ "" := by
  cases h with
  | run split some plain =>
      rw [Piece.chunks, extract_append split]
      simpa using some
  | escape mem escaped => exact escape?_chunks jsonp _ _ escaped

end JsonPlan.Json
