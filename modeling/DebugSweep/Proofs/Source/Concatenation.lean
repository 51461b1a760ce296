import DebugSweep.Proofs.Source.Lookahead
import DebugSweep.Proofs.Source.Segment

/-!
# Texts put together

A text that the search for statements reads to its end, where a statement can begin and no comment
is open, can be followed by any other text: the statements of both together are those of the one
and, shifted, those of the other.

The cut of such a text ends with a blank or with a byte after which a statement can begin, so that
none of its lexemes grows. No verdict changes either, since only a call directly before the end
could become a statement, and no statement can begin behind one. From the seam on, what can begin is
decided as at the beginning of a text.
-/

namespace DebugSweep.Source

/-- The span `distance` bytes further on. -/
def Span.shift (distance : Nat) (span : Span) : Span :=
  ⟨distance + span.start, distance + span.stop⟩

/-- Shifting twice. -/
theorem Span.shift_comp (first second : Nat) :
    Span.shift first ∘ Span.shift second = Span.shift (first + second) := by
  funext span
  simp only [Span.shift, Function.comp_apply, Nat.add_assoc]

/-- The offsets of statements count from where the text begins. -/
theorem statementsFrom_add (distance position skip : Nat) (atStart inWord : Bool) (text : Bytes) :
    statementsFrom (distance + position) skip atStart inWord text =
      (statementsFrom position skip atStart inWord text).map (Span.shift distance) := by
  induction text generalizing position skip atStart inWord with
  | nil => rfl
  | cons b rest ih =>
    simp only [statementsFrom, Nat.add_assoc, ih]
    split
    · rfl
    · split
      · rfl
      · split
        · rfl
        · rfl
        · rfl

/-- The text is read to its end, a statement can begin there, and its last byte belongs to no
comment. -/
def Joinable (text : Bytes) : Prop :=
  (search text).startsAtEnd = some true ∧
    ∀ lexeme ∈ (lexemes text).getLast?, lexeme.kind ≠ .comment

/-- What can begin after further lexemes depends on the lexemes before only by what can begin after
them. -/
theorem canBeginAfter_append_congr {before before' : List Lexeme}
    (h : canBeginAfter before = canBeginAfter before') (passed : List Lexeme) :
    canBeginAfter (passed ++ before) = canBeginAfter (passed ++ before') := by
  induction passed with
  | nil => exact h
  | cons lexeme passed ih =>
    rw [List.cons_append, List.cons_append, canBeginAfter_cons, canBeginAfter_cons, ih]

/-- Behind a place at which no statement can begin the terminator does not come next, blanks aside,
just because more lexemes follow. -/
theorem terminates_append {before lexemes : List Lexeme} (hbefore : canBeginAfter before = false)
    (hend : canBeginAfter (lexemes.reverse ++ before) = true) (more : List Lexeme) :
    terminates (lexemes ++ more) = terminates lexemes := by
  induction lexemes generalizing before with
  | nil => exact absurd (hbefore.symm.trans hend) Bool.false_ne_true
  | cons lexeme lexemes ih =>
    rw [List.cons_append, terminates_cons, terminates_cons]
    cases hblank : lexeme.isBlank with
    | false => rfl
    | true =>
      have hinsignificant : lexeme.isSignificant = false := by
        rw [Lexeme.isSignificant, hblank]
        rfl
      have hnext : canBeginAfter (lexeme :: before) = false := by
        rwa [canBeginAfter_cons, hinsignificant]
      rw [List.reverse_cons, List.append_assoc, List.singleton_append] at hend
      exact ih hnext hend

/-- An argument list that is closed, and not at the end, is closed in the same way whatever
follows. -/
theorem Closes.append {nested : Nat} {before lexemes : List Lexeme} {ends : Bool}
    (h : Closes nested lexemes ends)
    (hend : canBeginAfter (lexemes.reverse ++ before) = true) (more : List Lexeme) :
    Closes nested (lexemes ++ more) ends := by
  induction lexemes generalizing nested before with
  | nil =>
    obtain ⟨count, hcount, -⟩ := h
    cases hcount
  | cons lexeme lexemes ih =>
    rw [List.reverse_cons, List.append_assoc, List.singleton_append] at hend
    rw [List.cons_append]
    rcases argumentCount?_cases lexeme with rfl | rfl | ⟨hopen, hclose⟩
    · rw [closes_openParen_iff] at h ⊢
      exact ih h hend
    · cases nested with
      | zero =>
        rw [closes_closeParen_zero_iff] at h ⊢
        rw [← h]
        exact terminates_append rfl hend more
      | succ nested =>
        rw [closes_closeParen_succ_iff] at h ⊢
        exact ih h hend
    · rw [closes_cons_iff hopen hclose] at h ⊢
      exact ih h hend

/-- What is no statement becomes none by what follows, if a statement can begin at the end. -/
theorem candidateOf_append_of_other {before lexemes : List Lexeme} {lexeme : Lexeme}
    (h : candidateOf (lexeme :: lexemes) = .other)
    (hend : canBeginAfter (lexemes.reverse ++ lexeme :: before) = true) (more : List Lexeme) :
    candidateOf (lexeme :: (lexemes ++ more)) = .other := by
  cases hname : lexeme.isCallName with
  | false => exact candidateOf_of_isCallName_false hname _
  | true =>
    obtain ⟨name, -, rfl⟩ := Lexeme.isCallName_iff.mp hname
    cases lexemes with
    | nil =>
      have hword : canBeginAfter (⟨.word, name⟩ :: before) = false :=
        canBeginAfter_of_kind (by simp) (by simp) before
      exact absurd (hword.symm.trans hend) Bool.false_ne_true
    | cons opening lexemes =>
      by_cases hopening : opening.isByte Byte.openParen = true
      · rw [Lexeme.isByte_iff] at hopening
        subst hopening
        rw [List.reverse_cons, List.append_assoc, List.singleton_append] at hend
        obtain ⟨count, hcount, hends⟩ := (closes_of_candidateOf_other hname h).append hend more
        simp [candidateOf, hcount, hends]
      · simp [candidateOf, hopening]

/-- An argument list that is closed takes up as many lexemes whatever follows. -/
theorem argumentCount?_append_right {nested count : Nat} {lexemes : List Lexeme}
    (h : argumentCount? nested lexemes = some count) (more : List Lexeme) :
    argumentCount? nested (lexemes ++ more) = some count := by
  induction lexemes generalizing nested count with
  | nil => cases h
  | cons lexeme lexemes ih =>
    rw [List.cons_append]
    rcases argumentCount?_cases lexeme with rfl | rfl | ⟨hopen, hclose⟩
    · rw [argumentCount?_openParen, Option.map_eq_some_iff] at h ⊢
      obtain ⟨m, hm, rfl⟩ := h
      exact ⟨m, ih hm, rfl⟩
    · cases nested with
      | zero => exact h
      | succ nested =>
        rw [argumentCount?_closeParen_succ, Option.map_eq_some_iff] at h ⊢
        obtain ⟨m, hm, rfl⟩ := h
        exact ⟨m, ih hm, rfl⟩
    · rw [argumentCount?_cons hopen hclose, Option.map_eq_some_iff] at h ⊢
      obtain ⟨m, hm, rfl⟩ := h
      exact ⟨m, ih hm, rfl⟩

/-- A statement is taken for one whatever follows. -/
theorem IsStatement.candidateOf_append {body : List Lexeme} (h : IsStatement body)
    (more : List Lexeme) : candidateOf (body ++ more) = .statement body.length := by
  cases h with
  | @intro name arguments blanks hname harguments hblanks =>
    have hcount := argumentCount?_append_right harguments (blanks ++ .single terminator :: more)
    have hdrop : (blanks ++ .single terminator :: more).dropWhile Lexeme.isBlank =
        .single terminator :: more := by
      rw [List.dropWhile_append_of_pos hblanks]
      rfl
    have htake : (blanks ++ .single terminator :: more).takeWhile Lexeme.isBlank = blanks := by
      have hterminator : (Lexeme.single terminator).isBlank = false := rfl
      rw [List.takeWhile_append_of_pos hblanks, List.takeWhile_cons, hterminator]
      exact List.append_nil blanks
    have hterminates : terminates (blanks ++ .single terminator :: more) = true := by
      rw [terminates, hdrop]
      rfl
    simp [candidateOf, hname, hcount, hterminates, htake]
    omega

/-- The segments of lexemes depend on the lexemes before only by what can begin after them. -/
theorem Segmented.congr {before before' : List Lexeme} {segments : List Segment}
    (h : Segmented before segments) (hbefore : canBeginAfter before' = canBeginAfter before) :
    Segmented before' segments := by
  have hverdict {before before' : List Lexeme}
      (hbefore : canBeginAfter before' = canBeginAfter before) (lexemes : List Lexeme) :
      verdict before' lexemes = verdict before lexemes := by
    rw [verdict, verdict, hbefore]
  induction h generalizing before' with
  | nil => exact .nil
  | @kept _ lexeme _ hother _ ih =>
    exact .kept ((hverdict hbefore _).trans hother)
      (ih (canBeginAfter_append_congr hbefore [lexeme]))
  | unclosed hunclosed => exact .unclosed ((hverdict hbefore _).trans hunclosed)
  | @statement _ body _ hfound hstatement _ ih =>
    exact .statement ((hverdict hbefore _).trans hfound) hstatement
      (ih (canBeginAfter_append_congr hbefore body.reverse))

/-- The segments are those that the statements make of their lexemes, and no unclosed call ends the
search among them. -/
inductive Completed : List Lexeme → List Segment → Prop
  | nil {before : List Lexeme} : Completed before []
  | kept {before : List Lexeme} {lexeme : Lexeme} {rest : List Segment}
      (hother : verdict before (lexeme :: lexemesOf rest) = .other)
      (hrest : Completed (lexeme :: before) rest) : Completed before (.kept lexeme :: rest)
  | statement {before body : List Lexeme} {rest : List Segment}
      (hstart : canBeginAfter before = true) (hstatement : IsStatement body)
      (hrest : Completed (body.reverse ++ before) rest) :
      Completed before (.statement body :: rest)

/-- The search goes on over a lexeme that begins no statement. -/
theorem Lexeme.Heads.searchFrom_text {inWord : Bool} {lexeme : Lexeme} {rest : Bytes}
    (h : lexeme.Heads inWord rest) {before : List Lexeme}
    (hother : (if canBeginAfter before then candidate (lexeme.text ++ rest) else .other) = .other)
    (position : Nat) :
    searchFrom position 0 (canBeginAfter before) inWord (lexeme.text ++ rest) =
      searchFrom (position + lexeme.text.length) 0 (canBeginAfter (lexeme :: before))
        (wordAfter inWord lexeme.text) rest := by
  cases h with
  | @comment text _ hslash htrivia =>
    obtain ⟨b, text, rfl⟩ := List.exists_cons_of_ne_nil
      (Lexeme.Heads.text_ne_nil (.comment hslash htrivia))
    cases hslash
    rw [canBeginAfter_comment]
    simpa using searchFrom_trivia htrivia position (canBeginAfter before)
  | @literal text _ hslash htrivia =>
    obtain ⟨b, text, rfl⟩ := List.exists_cons_of_ne_nil
      (Lexeme.Heads.text_ne_nil (.literal hslash htrivia))
    have hb : (b == Byte.slash) = false := by simpa using hslash
    rw [canBeginAfter_of_kind (by simp) (by simp)]
    simpa [hb] using searchFrom_trivia htrivia position (canBeginAfter before)
  | @word b text _ hstart hinside hend htrivia =>
    have hb := Byte.isWord_of_isWordStart hstart
    rw [List.cons_append] at hother ⊢
    rw [searchFrom_code htrivia, hother, canBeginAfter_of_kind (by simp) (by simp),
      (Byte.isWord_exclusive hb).2.2.2.2, isBoundary_of_isWord hb, hb]
    simp only [Bool.false_eq_true, ↓reduceIte]
    rw [searchFrom_word hinside, wordAfter_cons, hb, wordAfter_of_forall hinside,
      List.length_cons, show position + 1 + text.length = position + (text.length + 1) by omega]
  | @byte b _ hstart htrivia =>
    rw [List.singleton_append] at hother ⊢
    rw [searchFrom_code htrivia, hother]
    exact congrArg (fun atStart => searchFrom (position + 1) 0 atStart (Byte.isWord b) rest)
      (canBeginAfter_single b before).symm

/-- The bytes of lexemes show the verdict about them. -/
theorem Lexed.candidate_textOf_verdict {inWord : Bool} {lexemes : List Lexeme}
    (h : Lexed inWord lexemes) (before : List Lexeme) :
    (if canBeginAfter before then candidate (textOf lexemes) else .other) =
      (verdict before lexemes).inBytes lexemes := by
  rw [verdict]
  split
  · exact h.candidate_textOf
  · rfl

/-- A call begins with a byte at which no comment or literal opens. -/
theorem Lexed.exists_cons_of_verdict {inWord : Bool} {before lexemes : List Lexeme}
    (h : Lexed inWord lexemes) (hcall : verdict before lexemes ≠ .other) :
    ∃ b tail, textOf lexemes = b :: tail ∧ triviaLength? inWord (b :: tail) = none := by
  have hname {lexeme : Lexeme} {rest : List Lexeme} (hlexemes : lexemes = lexeme :: rest)
      (hname : lexeme.isCallName = false) : False := by
    rw [verdict, hlexemes, candidateOf_of_isCallName_false hname, ite_self] at hcall
    exact hcall rfl
  cases h with
  | nil =>
    have hnone : candidateOf [] = .other := rfl
    rw [verdict, hnone, ite_self] at hcall
    exact absurd rfl hcall
  | cons hhead _ =>
    cases hhead with
    | comment hslash htrivia => exact (hname rfl rfl).elim
    | literal hslash htrivia => exact (hname rfl rfl).elim
    | word hstart hinside hend htrivia => exact ⟨_, _, rfl, htrivia⟩
    | byte hstart htrivia => exact ⟨_, _, rfl, htrivia⟩

/-- A search that comes to the end of its text has met no unclosed call, and its last flag says what
can begin there. -/
theorem Segmented.completed {before : List Lexeme} {segments : List Segment}
    (h : Segmented before segments) {inWord : Bool} (hlexed : Lexed inWord (lexemesOf segments))
    {position : Nat} {atStart : Bool}
    (hend : (searchFrom position 0 (canBeginAfter before) inWord
      (textOf (lexemesOf segments))).startsAtEnd = some atStart) :
    Completed before segments ∧
      canBeginAfter ((lexemesOf segments).reverse ++ before) = atStart := by
  induction h generalizing inWord position with
  | nil => exact ⟨.nil, Option.some.inj hend⟩
  | @kept before lexeme rest hother hrest ih =>
    rw [lexemesOf_kept] at hlexed hend ⊢
    have hcandidate := hlexed.candidate_textOf_verdict before
    obtain ⟨hhead, hlexed⟩ := hlexed.head_tail
    rw [hother, textOf_cons] at hcandidate
    rw [textOf_cons, hhead.searchFrom_text hcandidate] at hend
    obtain ⟨hcompleted, hflag⟩ := ih hlexed hend
    refine ⟨.kept hother hcompleted, ?_⟩
    rwa [List.reverse_cons, List.append_assoc, List.singleton_append]
  | @unclosed before lexemes hunclosed =>
    rw [lexemesOf_map_kept] at hlexed hend
    have hcandidate := hlexed.candidate_textOf_verdict before
    obtain ⟨b, tail, htext, htrivia⟩ :=
      hlexed.exists_cons_of_verdict (hunclosed.trans_ne Candidate.noConfusion)
    rw [htext, hunclosed] at hcandidate
    rw [htext, searchFrom_code htrivia, hcandidate] at hend
    cases hend
  | @statement before body rest hfound hstatement hrest ih =>
    rw [lexemesOf_statement] at hlexed hend ⊢
    have hstart := canBeginAfter_of_verdict (hfound.trans_ne Candidate.noConfusion)
    have hcandidate := hlexed.candidate_textOf_verdict before
    obtain ⟨b, tail, htext, htrivia⟩ :=
      hlexed.exists_cons_of_verdict (hfound.trans_ne Candidate.noConfusion)
    obtain ⟨first, inner, hbody, -⟩ := hstatement.exists_textOf
    rw [textOf_append, hbody, List.cons_append, List.cons.injEq] at htext
    obtain ⟨rfl, rfl⟩ := htext
    rw [textOf_append, hbody, List.cons_append] at hcandidate hend
    rw [searchFrom_code htrivia, hcandidate, hfound, Candidate.inBytes, List.take_left,
      hbody] at hend
    simp only [List.length_cons, Nat.add_sub_cancel, searchFrom_skip,
      ← hstatement.canBeginAfter before] at hend
    have hrest := hlexed.of_append
    rw [hbody, wordAfter_cons] at hrest
    obtain ⟨hcompleted, hflag⟩ := ih hrest hend
    refine ⟨.statement hstart hstatement hcompleted, ?_⟩
    rwa [List.reverse_append, List.append_assoc]

/-- Behind segments that are read to their end, where a statement can begin, others can follow. -/
theorem Completed.append {before : List Lexeme} {first second : List Segment}
    (h : Completed before first)
    (hend : canBeginAfter ((lexemesOf first).reverse ++ before) = true)
    (hsecond : Segmented ((lexemesOf first).reverse ++ before) second) :
    Segmented before (first ++ second) := by
  induction h with
  | nil => exact hsecond
  | @kept before lexeme rest hother hrest ih =>
    rw [lexemesOf_kept, List.reverse_cons, List.append_assoc, List.singleton_append] at hend hsecond
    rw [List.cons_append]
    refine .kept ?_ (ih hend hsecond)
    rw [verdict] at hother ⊢
    split
    · rename_i hstart
      rw [if_pos hstart] at hother
      rw [lexemesOf_append]
      exact candidateOf_append_of_other hother hend _
    · rfl
  | @statement before body rest hstart hstatement hrest ih =>
    rw [lexemesOf_statement, List.reverse_append, List.append_assoc] at hend hsecond
    rw [List.cons_append]
    refine .statement ?_ hstatement (ih hend hsecond)
    rw [verdict, if_pos hstart, hstatement.candidateOf_append]

/-- Where the last lexeme of a cut stands whatever follows it, another cut can follow. -/
theorem Lexed.append {inWord : Bool} {first second : List Lexeme} (h : Lexed inWord first)
    (hlast : ∀ lexeme ∈ first.getLast?, ∀ inWord rest, lexeme.Heads inWord rest)
    (hsecond : Lexed (wordAfter inWord (textOf first)) second) :
    Lexed inWord (first ++ second) := by
  induction h with
  | nil => exact hsecond
  | @cons inWord lexeme rest hhead hrest ih =>
    rw [textOf_cons, wordAfter_append] at hsecond
    rw [List.cons_append]
    cases hrest with
    | nil => exact .cons (hlast lexeme rfl inWord _) hsecond
    | @cons _ next rest hnext hafter =>
      have hlast' := hlast
      rw [List.getLast?_cons_cons] at hlast'
      refine .cons (hhead.congr ?_) (ih hlast' hsecond)
      obtain ⟨b, text, htext⟩ := List.exists_cons_of_ne_nil hnext.text_ne_nil
      rw [List.cons_append, textOf_cons, textOf_cons, htext]
      rfl

/-- The spans of segments that begin further on lie further on. -/
theorem spansOf_add (distance position : Nat) (segments : List Segment) :
    spansOf (distance + position) segments =
      (spansOf position segments).map (Span.shift distance) := by
  induction segments generalizing position with
  | nil => rfl
  | cons segment rest ih =>
    cases segment with
    | kept lexeme => rw [spansOf, spansOf, Nat.add_assoc, ih]
    | statement body => simp only [spansOf, Nat.add_assoc, ih, List.map_cons, Span.shift]

/-- The spans of segments put together. -/
theorem spansOf_append (position : Nat) (first second : List Segment) :
    spansOf position (first ++ second) =
      spansOf position first ++ spansOf (position + (textOf (lexemesOf first)).length) second := by
  induction first generalizing position with
  | nil => rfl
  | cons segment rest ih =>
    cases segment with
    | kept lexeme =>
      simp only [List.cons_append, spansOf, ih, lexemesOf_kept, textOf_cons, List.length_append,
        Nat.add_assoc]
    | statement body =>
      simp only [List.cons_append, spansOf, ih, lexemesOf_statement, textOf_append,
        List.length_append, Nat.add_assoc]

/-- The empty text can be followed by any text. -/
theorem joinable_nil : Joinable [] := ⟨rfl, fun _ h => nomatch h⟩

/-- The statements of a joinable text and of what follows it are those of both together. -/
theorem Joinable.exists_segments {first : Bytes} (h : Joinable first) (second : Bytes) :
    ∃ before after, lexemesOf before = lexemes first ∧ lexemesOf after = lexemes second ∧
      findStatements first = spansOf 0 before ∧ findStatements second = spansOf 0 after ∧
      findStatements (first ++ second) = spansOf 0 (before ++ after) := by
  obtain ⟨hend, hcomment⟩ := h
  obtain ⟨before, hbefore, hsegmented, hfirst⟩ := Source.exists_segments first
  obtain ⟨after, hafter, hsegmented', hsecond⟩ := Source.exists_segments second
  have hlexed : Lexed false (lexemesOf before) := hbefore ▸ lexed_lexemes first
  rw [search, ← textOf_lexemes first, ← hbefore] at hend
  obtain ⟨hcompleted, hstart⟩ := hsegmented.completed hlexed hend
  -- the last lexeme neither grows nor belongs to an identifier
  have hsingle : ∀ lexeme ∈ (lexemesOf before).getLast?,
      ∃ b, lexeme = .single b ∧ (Byte.isBlank b = true ∨ isBoundary b = true) := by
    intro lexeme hlast
    obtain ⟨passed, hpassed⟩ := List.getLast?_eq_some_iff.mp hlast
    rw [hpassed, List.reverse_append, List.append_nil] at hstart
    rw [hpassed] at hlexed
    obtain ⟨hhead, -⟩ := hlexed.of_append.head_tail
    exact hhead.exists_single (hcomment lexeme (hbefore ▸ hlast)) hstart
  have hword : wordAfter false (textOf (lexemesOf before)) = false := by
    rcases List.eq_nil_or_concat (lexemesOf before) with hnil | ⟨passed, last, hpassed⟩
    · rw [hnil]
      rfl
    · rw [List.concat_eq_append] at hpassed
      obtain ⟨b, rfl, hb⟩ := hsingle last (by rw [hpassed]; simp)
      rw [hpassed, textOf_append, wordAfter_append]
      exact isWord_of_isBlank_or_isBoundary hb
  have hjoined : Lexed false (lexemesOf before ++ lexemesOf after) := by
    refine hlexed.append ?_ ?_
    · intro lexeme hlast inWord rest
      obtain ⟨b, rfl, hb⟩ := hsingle lexeme hlast
      exact Lexeme.heads_single hb inWord rest
    · rw [hword, hafter]
      exact lexed_lexemes second
  have hstatements : Segmented [] (before ++ after) :=
    hcompleted.append hstart (hsegmented'.congr hstart)
  refine ⟨before, after, hbefore, hafter, hfirst, hsecond, ?_⟩
  have hfound := hjoined.findStatements_textOf
  rw [← lexemesOf_append, statementsOf, hstatements.statementsAmong_lexemesOf, lexemesOf_append,
    textOf_append, hbefore, hafter, textOf_lexemes, textOf_lexemes] at hfound
  exact hfound

/-- The statements of a joinable text and of what follows it, by their offsets. -/
theorem Joinable.findStatements_append {first : Bytes} (h : Joinable first) (second : Bytes) :
    findStatements (first ++ second) =
      findStatements first ++ (findStatements second).map (Span.shift first.length) := by
  obtain ⟨before, after, hbefore, -, hfirst, hsecond, hfound⟩ := h.exists_segments second
  have hlength : 0 + (textOf (lexemesOf before)).length = first.length + 0 := by
    rw [hbefore, textOf_lexemes, Nat.zero_add, Nat.add_zero]
  rw [hfound, spansOf_append, hlength, spansOf_add, ← hfirst, ← hsecond]

end DebugSweep.Source
