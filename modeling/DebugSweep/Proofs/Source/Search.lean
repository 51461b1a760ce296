import DebugSweep.Proofs.Source.Call

/-!
# The search for statements, followed to its end

`findStatements` reports statements only. `search` is the same loop and also says how it ends: in
which state the text runs out, unless an unclosed call stops the search before. What is put behind a
text is searched from that state on.
-/

namespace DebugSweep.Source

/-- What a search comes to. -/
structure Search where
  /-- The statements found, in order. -/
  found : List Span
  /-- Whether a statement can begin where the text ends; `none` if an unclosed call stopped the
  search. -/
  startsAtEnd : Option Bool
  deriving DecidableEq, Repr

/-- The search `statementsFrom` makes, with how it ends. -/
def searchFrom (position skip : Nat) (atStart inWord : Bool) : Bytes → Search
  | [] => ⟨[], some atStart⟩
  | b :: rest =>
    match skip with
    | skip + 1 => searchFrom (position + 1) skip atStart (Byte.isWord b) rest
    | 0 =>
      match triviaLength? inWord (b :: rest) with
      | some length =>
        searchFrom (position + 1) (length - 1) (atStart && b == Byte.slash) (Byte.isWord b) rest
      | none =>
        match if atStart then candidate (b :: rest) else .other with
        | .statement length =>
          let after := searchFrom (position + 1) (length - 1) true (Byte.isWord b) rest
          ⟨⟨position, position + length⟩ :: after.found, after.startsAtEnd⟩
        | .unclosed => ⟨[], none⟩
        | .other =>
          searchFrom (position + 1) 0 (if Byte.isBlank b then atStart else isBoundary b)
            (Byte.isWord b) rest

/-- The search of a text. -/
def search (text : Bytes) : Search := searchFrom 0 0 true false text

/-- The search finds what `statementsFrom` reports. -/
theorem found_searchFrom (position skip : Nat) (atStart inWord : Bool) (text : Bytes) :
    (searchFrom position skip atStart inWord text).found =
      statementsFrom position skip atStart inWord text := by
  induction text generalizing position skip atStart inWord with
  | nil => rfl
  | cons b rest ih =>
    cases skip with
    | succ skip => exact ih _ _ _ _
    | zero =>
      rw [searchFrom, statementsFrom]
      cases triviaLength? inWord (b :: rest) with
      | some length => exact ih _ _ _ _
      | none =>
        cases if atStart then candidate (b :: rest) else .other with
        | statement length => exact congrArg (_ :: ·) (ih _ _ _ _)
        | unclosed => rfl
        | other => exact ih _ _ _ _

/-- The bytes of what was found before are passed over. -/
theorem searchFrom_skip (position : Nat) (atStart inWord : Bool) (passed rest : Bytes) :
    searchFrom position passed.length atStart inWord (passed ++ rest) =
      searchFrom (position + passed.length) 0 atStart (wordAfter inWord passed) rest := by
  induction passed generalizing position inWord with
  | nil => rfl
  | cons b passed ih =>
    rw [List.length_cons, List.cons_append, searchFrom, ih, wordAfter_cons,
      show position + 1 + passed.length = position + (passed.length + 1) by omega]

/-- The rest of an identifier is passed over. -/
theorem searchFrom_word {text : Bytes} (h : ∀ c ∈ text, Byte.isWord c = true) (position : Nat)
    (rest : Bytes) :
    searchFrom position 0 false true (text ++ rest) =
      searchFrom (position + text.length) 0 false true rest := by
  induction text generalizing position with
  | nil => rfl
  | cons b text ih =>
    have hb := h b List.mem_cons_self
    rw [List.cons_append, searchFrom, triviaLength?_of_isWord hb]
    simp only [Bool.false_eq_true, ↓reduceIte, (Byte.isWord_exclusive hb).2.2.2.2,
      isBoundary_of_isWord hb, hb]
    rw [ih fun c hc => h c (List.mem_cons_of_mem _ hc), List.length_cons,
      show position + 1 + text.length = position + (text.length + 1) by omega]

/-- A comment or literal is passed over as a whole, and only a comment leaves the flag as it was. -/
theorem searchFrom_trivia {inWord : Bool} {b : UInt8} {text rest : Bytes}
    (h : triviaLength? inWord (b :: (text ++ rest)) = some (text.length + 1)) (position : Nat)
    (atStart : Bool) :
    searchFrom position 0 atStart inWord (b :: (text ++ rest)) =
      searchFrom (position + (text.length + 1)) 0 (atStart && b == Byte.slash)
        (wordAfter inWord (b :: text)) rest := by
  rw [searchFrom, h]
  simp only [Nat.add_sub_cancel]
  rw [searchFrom_skip, wordAfter_cons,
    show position + 1 + text.length = position + (text.length + 1) by omega]

/-- At a place where no comment or literal opens, the search finds a statement, stops, or passes
over one byte. -/
theorem searchFrom_code {inWord : Bool} {b : UInt8} {rest : Bytes}
    (h : triviaLength? inWord (b :: rest) = none) (position : Nat) (atStart : Bool) :
    searchFrom position 0 atStart inWord (b :: rest) =
      match if atStart then candidate (b :: rest) else .other with
      | .statement length =>
        let after := searchFrom (position + 1) (length - 1) true (Byte.isWord b) rest
        ⟨⟨position, position + length⟩ :: after.found, after.startsAtEnd⟩
      | .unclosed => ⟨[], none⟩
      | .other =>
        searchFrom (position + 1) 0 (if Byte.isBlank b then atStart else isBoundary b)
          (Byte.isWord b) rest := by
  cases hfound : if atStart then candidate (b :: rest) else .other with
  | statement length => simp only [searchFrom, h, hfound]
  | unclosed => simp only [searchFrom, h, hfound]
  | other => simp only [searchFrom, h, hfound]

end DebugSweep.Source
