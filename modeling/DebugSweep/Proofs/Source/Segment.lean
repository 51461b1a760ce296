import DebugSweep.Proofs.Source.Recogniser

/-!
# Segments

The statements of a text cut its lexemes into segments: whole statements, and single lexemes that
are kept. `Segmented` says that a cut is the one `statementsAmong` makes, with the reason why each
kept lexeme begins no statement. From a call that is never closed on, every lexeme is kept.

A statement about what is done with the statements of every text can thus be proved by induction on
segments, in which a statement is one step and offsets are not mentioned.
-/

namespace DebugSweep.Source

/-- A piece of a text between the cuts that its statements make. -/
inductive Segment where
  /-- A lexeme outside every statement. -/
  | kept (lexeme : Lexeme)
  /-- The lexemes of one statement. -/
  | statement (body : List Lexeme)
  deriving DecidableEq, Repr

/-- The lexemes of a segment. -/
def Segment.lexemes : Segment → List Lexeme
  | .kept lexeme => [lexeme]
  | .statement body => body

/-- The lexemes of segments put together. -/
def lexemesOf (segments : List Segment) : List Lexeme := segments.flatMap Segment.lexemes

@[simp] theorem lexemesOf_nil : lexemesOf [] = [] := rfl

@[simp] theorem lexemesOf_kept (lexeme : Lexeme) (rest : List Segment) :
    lexemesOf (.kept lexeme :: rest) = lexeme :: lexemesOf rest := rfl

@[simp] theorem lexemesOf_statement (body : List Lexeme) (rest : List Segment) :
    lexemesOf (.statement body :: rest) = body ++ lexemesOf rest := rfl

@[simp] theorem lexemesOf_append (first second : List Segment) :
    lexemesOf (first ++ second) = lexemesOf first ++ lexemesOf second := List.flatMap_append

/-- Keeping every lexeme changes nothing. -/
@[simp] theorem lexemesOf_map_kept (lexemes : List Lexeme) :
    lexemesOf (lexemes.map .kept) = lexemes := by
  induction lexemes with
  | nil => rfl
  | cons lexeme rest ih => rw [List.map_cons, lexemesOf_kept, ih]

/-- The offsets of the statements among segments that begin at offset `position`. -/
def spansOf (position : Nat) : List Segment → List Span
  | [] => []
  | .kept lexeme :: rest => spansOf (position + lexeme.text.length) rest
  | .statement body :: rest =>
    ⟨position, position + (textOf body).length⟩ :: spansOf (position + (textOf body).length) rest

/-- Where every lexeme is kept there are no statements. -/
@[simp] theorem spansOf_map_kept (position : Nat) (lexemes : List Lexeme) :
    spansOf position (lexemes.map .kept) = [] := by
  induction lexemes generalizing position with
  | nil => rfl
  | cons lexeme rest ih => exact ih _

/-- The statements of segments lie behind the place where the segments begin. -/
theorem le_start_of_mem_spansOf {position : Nat} {segments : List Segment} {span : Span}
    (h : span ∈ spansOf position segments) : position ≤ span.start ∧ span.start ≤ span.stop := by
  induction segments generalizing position with
  | nil => cases h
  | cons segment rest ih =>
    cases segment with
    | kept lexeme =>
      have := ih h
      omega
    | statement body =>
      rcases List.mem_cons.mp h with rfl | hrest
      · simp
      · have := ih hrest
        omega

/-- What the scan makes of the lexemes at a place, given the lexemes before. -/
def verdict (before lexemes : List Lexeme) : Candidate :=
  if canBeginAfter before then candidateOf lexemes else .other

/-- The segments are those that the statements make of their lexemes, which stand after `before`. -/
inductive Segmented : List Lexeme → List Segment → Prop
  | nil {before : List Lexeme} : Segmented before []
  | kept {before : List Lexeme} {lexeme : Lexeme} {rest : List Segment}
      (hother : verdict before (lexeme :: lexemesOf rest) = .other)
      (hrest : Segmented (lexeme :: before) rest) : Segmented before (.kept lexeme :: rest)
  /-- A call that is never closed ends the search. -/
  | unclosed {before lexemes : List Lexeme} (hunclosed : verdict before lexemes = .unclosed) :
      Segmented before (lexemes.map .kept)
  | statement {before body : List Lexeme} {rest : List Segment}
      (hfound : verdict before (body ++ lexemesOf rest) = .statement body.length)
      (hstatement : IsStatement body) (hrest : Segmented (body.reverse ++ before) rest) :
      Segmented before (.statement body :: rest)

/-- A statement or an unclosed call stands only where a statement can begin. -/
theorem canBeginAfter_of_verdict {before lexemes : List Lexeme}
    (h : verdict before lexemes ≠ .other) : canBeginAfter before = true := by
  rw [verdict] at h
  split at h
  · assumption
  · exact absurd rfl h

/-- Where no statement can begin, the first segment is a kept lexeme. -/
theorem Segmented.exists_kept {before : List Lexeme} {segment : Segment} {rest : List Segment}
    (h : Segmented before (segment :: rest)) (hstart : canBeginAfter before = false) :
    ∃ lexeme, segment = .kept lexeme ∧ Segmented (lexeme :: before) rest := by
  have hverdict (lexemes : List Lexeme) : verdict before lexemes = .other := by
    rw [verdict, hstart]
    rfl
  generalize hsegments : segment :: rest = segments at h
  cases h with
  | nil => cases hsegments
  | kept hother hrest =>
    cases hsegments
    exact ⟨_, rfl, hrest⟩
  | unclosed hunclosed =>
    rw [hverdict] at hunclosed
    cases hunclosed
  | statement hfound hstatement hrest =>
    rw [hverdict] at hfound
    cases hfound

/-- Every statement among segments stands where a statement can begin. -/
inductive Placed : List Lexeme → List Segment → Prop
  | nil {before : List Lexeme} : Placed before []
  | kept {before : List Lexeme} {lexeme : Lexeme} {rest : List Segment}
      (hrest : Placed (lexeme :: before) rest) : Placed before (.kept lexeme :: rest)
  | statement {before body : List Lexeme} {rest : List Segment}
      (hstart : canBeginAfter before = true) (hstatement : IsStatement body)
      (hrest : Placed (body.reverse ++ before) rest) : Placed before (.statement body :: rest)

/-- Where every lexeme is kept no statement is out of place. -/
theorem placed_map_kept (before lexemes : List Lexeme) : Placed before (lexemes.map .kept) := by
  induction lexemes generalizing before with
  | nil => exact .nil
  | cons lexeme rest ih => exact .kept (ih _)

/-- The statements found in a text stand where a statement can begin. -/
theorem Segmented.placed {before : List Lexeme} {segments : List Segment}
    (h : Segmented before segments) : Placed before segments := by
  induction h with
  | nil => exact .nil
  | kept _ _ ih => exact .kept ih
  | unclosed _ => exact placed_map_kept _ _
  | statement hfound hstatement _ ih =>
    exact .statement (canBeginAfter_of_verdict (by rw [hfound]; exact Candidate.noConfusion))
      hstatement ih

/-- Lexemes can be cut into segments at their statements. -/
theorem exists_segmented (before lexemes : List Lexeme) :
    ∃ segments, lexemesOf segments = lexemes ∧ Segmented before segments := by
  induction hlength : lexemes.length using Nat.strong_induction_on generalizing before lexemes with
  | _ length ih =>
    subst hlength
    cases lexemes with
    | nil => exact ⟨[], rfl, .nil⟩
    | cons lexeme rest =>
      cases hverdict : verdict before (lexeme :: rest) with
      | other =>
        obtain ⟨segments, rfl, hrest⟩ := ih rest.length (by simp) (lexeme :: before) rest rfl
        exact ⟨.kept lexeme :: segments, rfl, .kept hverdict hrest⟩
      | unclosed => exact ⟨_, lexemesOf_map_kept _, .unclosed hverdict⟩
      | statement count =>
        have hstart := canBeginAfter_of_verdict (hverdict.trans_ne Candidate.noConfusion)
        have hfound : candidateOf (lexeme :: rest) = .statement count := by
          rw [← hverdict, verdict, if_pos hstart]
        obtain ⟨body, after, hsplit, rfl, hstatement⟩ := exists_statement hfound
        have hnonempty : body ≠ [] := by rintro rfl; cases hstatement
        have hshorter : after.length < (lexeme :: rest).length := by
          have := List.length_pos_of_ne_nil hnonempty
          rw [hsplit, List.length_append]
          omega
        obtain ⟨segments, rfl, hrest⟩ := ih after.length hshorter (body.reverse ++ before) after rfl
        rw [hsplit] at hverdict
        exact ⟨.statement body :: segments, hsplit.symm, .statement hverdict hstatement hrest⟩

/-- Nothing is found from a call on that is never closed. -/
theorem statementsAmong_unclosed {before lexemes : List Lexeme}
    (h : verdict before lexemes = .unclosed) (position : Nat) :
    statementsAmong position 0 before lexemes = [] := by
  rcases lexemes with _ | ⟨lexeme, rest⟩
  · rfl
  · rw [verdict] at h
    rw [statementsAmong, h]

/-- The statements read off the lexemes are those the segments show. -/
theorem Segmented.statementsAmong_lexemesOf {before : List Lexeme} {segments : List Segment}
    (h : Segmented before segments) (position : Nat) :
    statementsAmong position 0 before (lexemesOf segments) = spansOf position segments := by
  induction h generalizing position with
  | nil => rfl
  | kept hother _ ih => rw [lexemesOf_kept, statementsAmong_other hother, ih, spansOf]
  | @unclosed before lexemes hunclosed =>
    rw [lexemesOf_map_kept, spansOf_map_kept, statementsAmong_unclosed hunclosed]
  | @statement before body rest hfound hstatement _ ih =>
    cases body with
    | nil => cases hstatement
    | cons lexeme body =>
      rw [lexemesOf_statement, List.cons_append] at *
      rw [verdict] at hfound
      rw [statementsAmong, hfound, spansOf]
      simp only [List.length_cons, Nat.add_sub_cancel, List.take_succ_cons, List.take_left]
      rw [statementsAmong_skip, ← ih]
      simp only [textOf_cons, List.length_append, List.reverse_cons, List.append_assoc,
        List.singleton_append, Nat.add_assoc]

/-- Every text is cut into segments by the statements found in it. -/
theorem exists_segments (text : Bytes) :
    ∃ segments, lexemesOf segments = lexemes text ∧ Segmented [] segments ∧
      findStatements text = spansOf 0 segments := by
  obtain ⟨segments, hlexemes, hsegmented⟩ := exists_segmented [] (lexemes text)
  have hfind := (lexed_lexemes text).findStatements_textOf
  rw [textOf_lexemes] at hfind
  refine ⟨segments, hlexemes, hsegmented, ?_⟩
  rw [hfind, statementsOf, ← hlexemes, hsegmented.statementsAmong_lexemesOf]

end DebugSweep.Source
