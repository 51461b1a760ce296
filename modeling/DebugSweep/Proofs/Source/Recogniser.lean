import DebugSweep.Proofs.Source.Search

/-!
# The scan finds what the lexemes show

`findStatements` reads a text byte by byte and keeps in one flag whether a statement can begin.
`statementsOf` reads the list of lexemes and looks back in it. Between two lexemes the flag is what
looking back gives, and inside a lexeme the scan reports nothing, so both report the same
statements for every text, also one whose last comment, literal or call is never closed.
-/

namespace DebugSweep.Source

/-- The bytes of what was found before are passed over. -/
theorem statementsFrom_skip (position : Nat) (atStart inWord : Bool) (passed rest : Bytes) :
    statementsFrom position passed.length atStart inWord (passed ++ rest) =
      statementsFrom (position + passed.length) 0 atStart (wordAfter inWord passed) rest := by
  rw [← found_searchFrom, searchFrom_skip, found_searchFrom]

/-- The lexemes of the statement found before are passed over. -/
theorem statementsAmong_skip (position : Nat) (before passed rest : List Lexeme) :
    statementsAmong position passed.length before (passed ++ rest) =
      statementsAmong (position + (textOf passed).length) 0 (passed.reverse ++ before) rest := by
  induction passed generalizing position before with
  | nil => rfl
  | cons lexeme passed ih =>
    rw [List.length_cons, List.cons_append, statementsAmong, ih]
    simp only [textOf_cons, List.length_append, List.reverse_cons, List.append_assoc,
      List.singleton_append, Nat.add_assoc]

/-- The rest of an identifier is passed over. -/
theorem statementsFrom_word {text : Bytes} (h : ∀ c ∈ text, Byte.isWord c = true) (position : Nat)
    (rest : Bytes) :
    statementsFrom position 0 false true (text ++ rest) =
      statementsFrom (position + text.length) 0 false true rest := by
  rw [← found_searchFrom, searchFrom_word h, found_searchFrom]

/-- A comment or literal is passed over as a whole, and only a comment leaves the flag as it was. -/
theorem statementsFrom_trivia {inWord : Bool} {b : UInt8} {text rest : Bytes}
    (h : triviaLength? inWord (b :: (text ++ rest)) = some (text.length + 1)) (position : Nat)
    (atStart : Bool) :
    statementsFrom position 0 atStart inWord (b :: (text ++ rest)) =
      statementsFrom (position + (text.length + 1)) 0 (atStart && b == Byte.slash)
        (wordAfter inWord (b :: text)) rest := by
  rw [← found_searchFrom, searchFrom_trivia h, found_searchFrom]

/-- At a place where no comment or literal opens, the scan reports a statement, ends, or passes over
one byte. -/
theorem statementsFrom_code {inWord : Bool} {b : UInt8} {rest : Bytes}
    (h : triviaLength? inWord (b :: rest) = none) (position : Nat) (atStart : Bool) :
    statementsFrom position 0 atStart inWord (b :: rest) =
      match if atStart then candidate (b :: rest) else .other with
      | .statement length =>
        ⟨position, position + length⟩ ::
          statementsFrom (position + 1) (length - 1) true (Byte.isWord b) rest
      | .unclosed => []
      | .other =>
        statementsFrom (position + 1) 0 (if Byte.isBlank b then atStart else isBoundary b)
          (Byte.isWord b) rest := by
  cases hfound : if atStart then candidate (b :: rest) else .other with
  | statement length => simp only [statementsFrom, h, hfound]
  | unclosed => simp only [statementsFrom, h, hfound]
  | other => simp only [statementsFrom, h, hfound]

/-- Only a lexeme at which a call name stands can be a candidate. -/
theorem candidateOf_of_isCallName_false {lexeme : Lexeme} (h : lexeme.isCallName = false)
    (rest : List Lexeme) : candidateOf (lexeme :: rest) = .other := by
  cases rest with
  | nil => rfl
  | cons opening rest => simp [candidateOf, h]

/-- A lexeme that is no candidate is passed over. -/
theorem statementsAmong_other {lexeme : Lexeme} {rest before : List Lexeme}
    (h : (if canBeginAfter before then candidateOf (lexeme :: rest) else .other) = .other)
    (position : Nat) :
    statementsAmong position 0 before (lexeme :: rest) =
      statementsAmong (position + lexeme.text.length) 0 (lexeme :: before) rest := by
  rw [statementsAmong, h]

/-- A lexeme that is no call name is passed over. -/
theorem statementsAmong_of_isCallName {lexeme : Lexeme} (h : lexeme.isCallName = false)
    (position : Nat) {rest before : List Lexeme} :
    statementsAmong position 0 before (lexeme :: rest) =
      statementsAmong (position + lexeme.text.length) 0 (lexeme :: before) rest := by
  apply statementsAmong_other
  rw [candidateOf_of_isCallName_false h, ite_self]

/-- A statement is passed over by both sides alike. -/
theorem Lexed.statementsFrom_statement {inWord : Bool} {b : UInt8} {text : Bytes}
    {body after : List Lexeme} (h : Lexed inWord (body ++ after))
    (hbody : textOf body = b :: text) (hstatement : IsStatement body) (before : List Lexeme)
    (position : Nat)
    (ih : ∀ inWord position before, Lexed inWord after →
      statementsFrom position 0 (canBeginAfter before) inWord (textOf after) =
        statementsAmong position 0 before after) :
    statementsFrom (position + 1) text.length true (Byte.isWord b) (text ++ textOf after) =
      statementsAmong (position + (textOf body).length) 0 (body.reverse ++ before) after := by
  rw [statementsFrom_skip, ← wordAfter_cons inWord, ← hbody, ← hstatement.canBeginAfter before,
    ih _ _ _ h.of_append, hbody, List.length_cons,
    show position + 1 + text.length = position + (text.length + 1) by omega]

/-- At a lexeme of code both sides see the same candidate, so that they agree if they do where the
lexeme is passed over and behind a statement. -/
theorem Lexed.statementsFrom_candidate {inWord : Bool} {lexeme : Lexeme} {rest : List Lexeme}
    (hlexed : Lexed inWord (lexeme :: rest)) {b : UInt8} {text : Bytes}
    (htext : lexeme.text = b :: text)
    (htrivia : triviaLength? inWord (b :: (text ++ textOf rest)) = none) (position : Nat)
    (before : List Lexeme)
    (hother : statementsFrom (position + 1) 0
          (if Byte.isBlank b then canBeginAfter before else isBoundary b) (Byte.isWord b)
          (text ++ textOf rest) =
        statementsAmong (position + lexeme.text.length) 0 (lexeme :: before) rest)
    (ih : ∀ after : List Lexeme, after.length < (lexeme :: rest).length →
      ∀ inWord position before, Lexed inWord after →
        statementsFrom position 0 (canBeginAfter before) inWord (textOf after) =
          statementsAmong position 0 before after) :
    statementsFrom position 0 (canBeginAfter before) inWord (textOf (lexeme :: rest)) =
      statementsAmong position 0 before (lexeme :: rest) := by
  have hcandidate := hlexed.candidate_textOf
  rw [textOf_cons, htext, List.cons_append] at hcandidate ⊢
  rw [statementsFrom_code htrivia, statementsAmong]
  cases hstart : canBeginAfter before with
  | false =>
    rw [hstart] at hother
    exact hother
  | true =>
    rw [hstart] at hother
    simp only [↓reduceIte, hcandidate]
    cases hfound : candidateOf (lexeme :: rest) with
    | other => exact hother
    | unclosed => rfl
    | statement count =>
      obtain ⟨body, after, hsplit, rfl, hstatement⟩ := exists_statement hfound
      cases body with
      | nil => cases hstatement
      | cons first body =>
        rw [List.cons_append, List.cons.injEq] at hsplit
        obtain ⟨rfl, rfl⟩ := hsplit
        have hbody : textOf (lexeme :: body) = b :: (text ++ textOf body) := by
          rw [textOf_cons, htext, List.cons_append]
        have hshorter : after.length < (lexeme :: (body ++ after)).length := by
          rw [List.length_cons, List.length_append]
          omega
        have hpassed :=
          hlexed.statementsFrom_statement hbody hstatement before position (ih after hshorter)
        have htake : List.take (lexeme :: body).length (lexeme :: (body ++ after)) =
            lexeme :: body := by
          rw [← List.cons_append, List.take_left]
        simp only [Candidate.inBytes, htake]
        refine congrArg (_ :: ·) ?_
        rw [hbody, List.length_cons, List.length_cons, Nat.add_sub_cancel, Nat.add_sub_cancel,
          textOf_append, ← List.append_assoc, hpassed, statementsAmong_skip]
        simp only [textOf_cons, List.length_append, List.reverse_cons, List.append_assoc,
          List.singleton_append, Nat.add_assoc]

/-- Between two lexemes the scan of the bytes goes on as the reading of the lexemes does. -/
theorem Lexed.statementsFrom_textOf {inWord : Bool} {lexemes : List Lexeme}
    (h : Lexed inWord lexemes) (position : Nat) (before : List Lexeme) :
    statementsFrom position 0 (canBeginAfter before) inWord (textOf lexemes) =
      statementsAmong position 0 before lexemes := by
  induction hlength : lexemes.length using Nat.strong_induction_on
    generalizing inWord lexemes position before with
  | _ length ih =>
    subst hlength
    cases h with
    | nil => rfl
    | @cons _ lexeme rest hhead hrest =>
      have hlexed : Lexed inWord (lexeme :: rest) := .cons hhead hrest
      have hnext (position : Nat) (before : List Lexeme) :=
        ih rest.length (by simp) hrest position before rfl
      have hbehind (after : List Lexeme) (hshorter : after.length < (lexeme :: rest).length)
          (inWord : Bool) (position : Nat) (before : List Lexeme) (hafter : Lexed inWord after) :=
        ih after.length hshorter hafter position before rfl
      cases hhead with
      | @comment text _ hslash htrivia =>
        obtain ⟨b, text, rfl⟩ := List.exists_cons_of_ne_nil
          (Lexeme.Heads.text_ne_nil (.comment hslash htrivia))
        cases hslash
        rw [textOf_cons, List.cons_append, statementsFrom_trivia htrivia,
          statementsAmong_of_isCallName rfl, ← hnext, canBeginAfter_comment]
        simp
      | @literal text _ hslash htrivia =>
        obtain ⟨b, text, rfl⟩ := List.exists_cons_of_ne_nil
          (Lexeme.Heads.text_ne_nil (.literal hslash htrivia))
        have hb : (b == Byte.slash) = false := by simpa using hslash
        rw [textOf_cons, List.cons_append, statementsFrom_trivia htrivia,
          statementsAmong_of_isCallName rfl, ← hnext, canBeginAfter_of_kind (by simp) (by simp), hb,
          Bool.and_false]
        simp
      | @word b text _ hstart hinside hend htrivia =>
        have hb := Byte.isWord_of_isWordStart hstart
        refine hlexed.statementsFrom_candidate rfl htrivia position before ?_ hbehind
        rw [(Byte.isWord_exclusive hb).2.2.2.2, isBoundary_of_isWord hb, hb]
        simp only [Bool.false_eq_true, ↓reduceIte]
        rw [statementsFrom_word hinside, ← hnext, canBeginAfter_of_kind (by simp) (by simp),
          wordAfter_cons, hb, wordAfter_of_forall hinside, List.length_cons,
          show position + 1 + text.length = position + (text.length + 1) by omega]
      | @byte b _ hstart htrivia =>
        refine hlexed.statementsFrom_candidate rfl htrivia position before ?_ hbehind
        rw [← hnext]
        exact congrArg (fun atStart => statementsFrom (position + 1) 0 atStart (Byte.isWord b)
          (textOf rest)) (canBeginAfter_single b before).symm

/-- The statements of a text are read off its lexemes. -/
theorem Lexed.findStatements_textOf {lexemes : List Lexeme} (h : Lexed false lexemes) :
    findStatements (textOf lexemes) = statementsOf lexemes :=
  h.statementsFrom_textOf 0 []

/-- The lexemes of a text cover it, each delimited as its kind demands, and the scan reports exactly
the statements that are read off them. -/
theorem findStatements_eq_statementsOf (text : Bytes) :
    textOf (lexemes text) = text ∧ Lexed false (lexemes text) ∧
      findStatements text = statementsOf (lexemes text) := by
  have h := (lexed_lexemes text).findStatements_textOf
  rw [textOf_lexemes] at h
  exact ⟨textOf_lexemes text, lexed_lexemes text, h⟩

end DebugSweep.Source
