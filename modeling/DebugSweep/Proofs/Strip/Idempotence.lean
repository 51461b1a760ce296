import DebugSweep.Proofs.Strip.Offsets

/-!
# Stripping twice

Where nothing but blanks is kept after a statement on its line, a stripped text has no statements,
so that stripping it again changes nothing. The second reading sees other lexemes than the first:
statements that stood in the arguments of a call have become comments. It comes to the same
verdict about every kept call, since a statement is balanced and no call ends in the comment that
replaces one (`Closes`), and about every place at which a statement could begin.
-/

namespace DebugSweep.Strip

open Source

/-- Only blanks are kept after each statement up to the end of its line. -/
def StatementsEndLines (text : Bytes) : Prop :=
  ∀ offset b, Outside (findStatements text) offset → Trails (findStatements text) text offset →
    text[offset]? = some b → Byte.isBlank b = true

/-- Where no statement can begin, what is kept ends in the terminator if it did so before. -/
theorem terminates_relexed {before : List Lexeme} {segments : List Segment}
    (h : Segmented before segments) (hstart : canBeginAfter before = false) :
    terminates (relexed none segments) = terminates (lexemesOf segments) := by
  induction segments generalizing before with
  | nil => rfl
  | cons segment rest ih =>
    obtain ⟨lexeme, rfl, hrest⟩ := h.exists_kept hstart
    rw [relexed, lexemesOf_kept, terminates_cons, terminates_cons]
    cases hblank : lexeme.isBlank with
    | false => rfl
    | true =>
      have hinsignificant : lexeme.isSignificant = false := by
        rw [Lexeme.isSignificant, hblank]
        rfl
      apply ih hrest
      rw [canBeginAfter_cons, hinsignificant]
      exact hstart

/-- Only blanks are kept after each statement up to the end of its line. -/
abbrev LineBlank (trailing : Bool) (segments : List Segment) : Prop :=
  LineKept (fun b _ => Byte.isBlank b = true) trailing segments

/-- A kept lexeme that is blank at its first byte is a single blank, and it ends the line if it is a
newline. -/
theorem exists_blank {inWord : Bool} {lexeme : Lexeme} {rest : List Segment}
    (hhead : lexeme.Heads inWord (textOf (lexemesOf rest)))
    (h : LineBlank true (.kept lexeme :: rest)) :
    ∃ b, lexeme = .single b ∧ Byte.isBlank b = true ∧
      LineBlank (b != Byte.newline) rest := by
  obtain ⟨first, tail, htext, hblank, -⟩ := hhead.exists_cons
  have hfirst := h.1 rfl 0 first (by rw [htext]; rfl) (by simp)
  obtain ⟨b, rfl, hb⟩ := hhead.eq_single_of_isBlank (hblank ▸ hfirst)
  have hline : (true && !(Lexeme.single b).text.contains Byte.newline) = (b != Byte.newline) := by
    by_cases hnewline : b = Byte.newline
    · rw [hnewline]
      rfl
    · rw [bne_iff_ne.mpr hnewline]
      simpa [Lexeme.single] using Ne.symm hnewline
  exact ⟨b, rfl, hb, hline ▸ h.2⟩

/-- A call does not stand among the blanks after a statement. -/
theorem not_lineBlank_of_unclosed {before lexemes : List Lexeme}
    (hunclosed : verdict before lexemes = .unclosed) {inWord : Bool}
    (hlexed : Lexed inWord lexemes) : ¬ LineBlank true (lexemes.map .kept) := by
  intro hline
  rcases lexemes with _ | ⟨lexeme, rest⟩
  · have hnone : candidateOf [] = .other := rfl
    rw [verdict, hnone, ite_self] at hunclosed
    cases hunclosed
  · rw [List.map_cons] at hline
    obtain ⟨hhead, -⟩ := hlexed.head_tail
    rw [← lexemesOf_map_kept rest] at hhead
    obtain ⟨b, rfl, -, -⟩ := exists_blank hhead hline
    rw [verdict, candidateOf_of_isCallName_false rfl, ite_self] at hunclosed
    cases hunclosed

/-- An argument list that was closed is closed after stripping, and the same follows it. -/
theorem closes_relexed {before : List Lexeme} {segments : List Segment}
    (h : Segmented before segments) {inWord : Bool} (hlexed : Lexed inWord (lexemesOf segments))
    {nested : Nat} {ends : Bool} (hcloses : Closes nested (lexemesOf segments) ends) :
    (LineBlank false segments →
      Closes nested (relexed none segments) ends) ∧
    (LineBlank true segments →
      ∀ text, Closes nested (relexed (some text) segments) ends) := by
  induction h generalizing inWord nested with
  | nil =>
    obtain ⟨count, hcount, -⟩ := hcloses
    cases hcount
  | unclosed hunclosed =>
    rw [lexemesOf_map_kept] at hcloses
    rw [lexemesOf_map_kept] at hlexed
    exact ⟨fun _ => by rwa [relexed_map_kept],
      fun hline => absurd hline (not_lineBlank_of_unclosed hunclosed hlexed)⟩
  | @statement before body rest hfound hstatement hrest ih =>
    obtain ⟨-, hopen⟩ := ih hlexed.of_append (hstatement.closes_append_iff.mp hcloses)
    exact ⟨fun hline => hopen hline _, fun hline text => hopen hline _⟩
  | @kept before lexeme rest hother hrest ih =>
    obtain ⟨hhead, hlexed⟩ := hlexed.head_tail
    constructor
    · intro hline
      rw [relexed]
      rw [lexemesOf_kept] at hcloses
      rcases argumentCount?_cases lexeme with rfl | rfl | ⟨hopen, hclose⟩
      · rw [closes_openParen_iff] at hcloses ⊢
        exact (ih hlexed hcloses).1 hline.2
      · cases nested with
        | zero =>
          rw [closes_closeParen_zero_iff] at hcloses ⊢
          rw [← hcloses]
          exact terminates_relexed hrest rfl
        | succ nested =>
          rw [closes_closeParen_succ_iff] at hcloses ⊢
          exact (ih hlexed hcloses).1 hline.2
      · rw [closes_cons_iff hopen hclose] at hcloses ⊢
        exact (ih hlexed hcloses).1 hline.2
    · intro hline text
      obtain ⟨b, rfl, hb, hrest⟩ := exists_blank hhead hline
      have hblank : (Lexeme.single b).isBlank = true := by rwa [Lexeme.isBlank_single]
      have hpassed {rest : List Lexeme} :
          Closes nested (.single b :: rest) ends ↔ Closes nested rest ends :=
        closes_cons_iff (Lexeme.isByte_of_isBlank hblank rfl) (Lexeme.isByte_of_isBlank hblank rfl)
      rw [lexemesOf_kept, hpassed] at hcloses
      obtain ⟨hsync, hopen⟩ := ih hlexed hcloses
      by_cases hnewline : b = Byte.newline
      · subst hnewline
        rw [relexed_newline, closes_cons_iff (Lexeme.isByte_of_kind (by simp) _)
          (Lexeme.isByte_of_kind (by simp) _), hpassed]
        exact hsync hrest
      · rw [relexed_single hnewline]
        rw [bne_iff_ne.mpr hnewline] at hrest
        exact hopen hrest _

/-- A kept lexeme begins no statement after stripping. -/
theorem candidateOf_relexed {before : List Lexeme} {lexeme : Lexeme} {rest : List Segment}
    (hrest : Segmented (lexeme :: before) rest) {inWord : Bool}
    (hlexed : Lexed inWord (lexeme :: lexemesOf rest)) (hline : LineBlank false rest)
    (hother : candidateOf (lexeme :: lexemesOf rest) = .other) (count : Nat) :
    candidateOf (lexeme :: relexed none rest) ≠ .statement count := by
  intro hstatement
  obtain ⟨name, after, hsplit, hname, hends⟩ := candidateOf_eq_statement hstatement
  obtain ⟨rfl, hrelexed⟩ := List.cons.inj hsplit
  have hstart : canBeginAfter (lexeme :: before) = false := by
    obtain ⟨spelling, -, rfl⟩ := Lexeme.isCallName_iff.mp hname
    exact canBeginAfter_of_kind (by simp) (by simp) before
  cases rest with
  | nil => cases hrelexed
  | cons segment rest =>
    obtain ⟨opening, rfl, hbehind⟩ := hrest.exists_kept hstart
    rw [relexed, List.cons.injEq] at hrelexed
    obtain ⟨rfl, rfl⟩ := hrelexed
    obtain ⟨-, hlexed⟩ := hlexed.head_tail
    obtain ⟨-, hlexed⟩ := hlexed.head_tail
    have hcloses := closes_of_candidateOf_other hname hother
    have hfalse := (closes_relexed hbehind hlexed hcloses).1 hline.2
    cases hfalse.unique hends

/-- The scan of a stripped text finds no statement where a lexeme was kept. -/
theorem verdict_relexed {before before' : List Lexeme} {lexeme : Lexeme} {rest : List Segment}
    (hrest : Segmented (lexeme :: before) rest) {inWord : Bool}
    (hlexed : Lexed inWord (lexeme :: lexemesOf rest)) (hline : LineBlank false rest)
    (hother : verdict before (lexeme :: lexemesOf rest) = .other)
    (hbefore : canBeginAfter before' = canBeginAfter before) (count : Nat) :
    verdict before' (lexeme :: relexed none rest) ≠ .statement count := by
  intro hstatement
  have hstart := canBeginAfter_of_verdict (hstatement.trans_ne Candidate.noConfusion)
  rw [verdict, if_pos hstart] at hstatement
  rw [verdict, ← hbefore, if_pos hstart] at hother
  exact candidateOf_relexed hrest hlexed hline hother count hstatement

/-- Nothing is found after stripping, at a place where no comment is open and where one is. -/
theorem statementsAmong_relexed {before : List Lexeme} {segments : List Segment}
    (h : Segmented before segments) {inWord : Bool} (hlexed : Lexed inWord (lexemesOf segments)) :
    (LineBlank false segments → ∀ position before', canBeginAfter before' = canBeginAfter before →
      statementsAmong position 0 before' (relexed none segments) = []) ∧
    (LineBlank true segments → canBeginAfter before = true → ∀ position before' text,
      canBeginAfter before' = true →
      statementsAmong position 0 before' (relexed (some text) segments) = []) := by
  induction h generalizing inWord with
  | nil =>
    exact ⟨fun _ _ _ _ => rfl,
      fun _ _ position before' text _ => statementsAmong_of_isCallName rfl position⟩
  | @unclosed before lexemes hunclosed =>
    rw [lexemesOf_map_kept] at hlexed
    refine ⟨fun _ position before' hbefore => ?_,
      fun hline => absurd hline (not_lineBlank_of_unclosed hunclosed hlexed)⟩
    rw [relexed_map_kept]
    apply statementsAmong_unclosed
    rw [← hunclosed, verdict, verdict, hbefore]
  | @statement before body rest hfound hstatement hrest ih =>
    have hstart := canBeginAfter_of_verdict (hfound.trans_ne Candidate.noConfusion)
    obtain ⟨-, hopen⟩ := ih hlexed.of_append
    constructor
    · intro hline position before' hbefore
      exact hopen hline (hstatement.canBeginAfter before) position before' _ (hbefore.trans hstart)
    · intro hline _ position before' text hbefore
      exact hopen hline (hstatement.canBeginAfter before) position before' _ hbefore
  | @kept before lexeme rest hother hrest ih =>
    have hwhole := hlexed
    obtain ⟨hhead, hlexed⟩ := hlexed.head_tail
    obtain ⟨hsync, hopen⟩ := ih hlexed
    constructor
    · intro hline position before' hbefore
      rw [relexed]
      cases hverdict : verdict before' (lexeme :: relexed none rest) with
      | statement count =>
        exact absurd hverdict (verdict_relexed hrest hwhole hline.2 hother hbefore count)
      | unclosed => exact statementsAmong_unclosed hverdict position
      | other =>
        rw [statementsAmong_other hverdict]
        apply hsync hline.2
        rw [canBeginAfter_cons, canBeginAfter_cons, hbefore]
    · intro hline hstart position before' text hbefore
      obtain ⟨b, rfl, hb, hrest⟩ := exists_blank hhead hline
      by_cases hnewline : b = Byte.newline
      · subst hnewline
        rw [relexed_newline, statementsAmong_of_isCallName rfl, statementsAmong_of_isCallName rfl]
        apply hsync hrest
        rw [canBeginAfter_single, canBeginAfter_single, canBeginAfter_comment, hbefore, hstart]
      · rw [relexed_single hnewline]
        rw [bne_iff_ne.mpr hnewline] at hrest
        refine hopen hrest ?_ position before' _ hbefore
        rwa [canBeginAfter_single, hb]

/-- Where the statements of a text end their lines, the stripped text has none, and stripping it
again changes nothing and reports nothing as removed. -/
theorem strip_strip_scan {text : Bytes} (h : StatementsEndLines text) :
    findStatements (strip .scan text).text = [] ∧
      strip .scan (strip .scan text).text = ⟨(strip .scan text).text, 0⟩ := by
  obtain ⟨segments, hlexemes, hsegmented, hfind, hstripped, hrelexed⟩ := exists_stripped text
  have hlexed : Lexed false (lexemesOf segments) := hlexemes ▸ lexed_lexemes text
  have hline : LineBlank false segments := by
    refine (lineKept_text hlexemes hfind _).mpr fun offset b code houtside hbyte _ htrails => ?_
    exact h offset b houtside htrails hbyte
  have hnone : findStatements (strip .scan text).text = [] := by
    have hfound := (lexed_lexemes (strip .scan text).text).findStatements_textOf
    rw [textOf_lexemes, hrelexed] at hfound
    rw [hfound]
    exact (statementsAmong_relexed hsegmented hlexed).1 hline 0 [] rfl
  refine ⟨hnone, ?_⟩
  rw [strip, hnone]
  rfl

/-- A statement in the arguments of a call that is no statement itself. -/
theorem strip_strip_scan_nested :
    StatementsEndLines (ascii "print(\x7bprint(1);\n\x7d) + 1;") ∧
      findStatements (ascii "print(\x7bprint(1);\n\x7d) + 1;") = [⟨7, 16⟩] ∧
      findStatements (strip .scan (ascii "print(\x7bprint(1);\n\x7d) + 1;")).text = [] := by
  have hfind : findStatements (ascii "print(\x7bprint(1);\n\x7d) + 1;") = [⟨7, 16⟩] := by rfl
  have h : StatementsEndLines (ascii "print(\x7bprint(1);\n\x7d) + 1;") := by
    intro offset b houtside htrails hbyte
    obtain ⟨span, hspan, hstop, hline⟩ := htrails
    rw [hfind] at hline
    rw [hfind, List.mem_singleton] at hspan
    subst hspan
    simp only at hstop hline
    have hnewline : Outside [⟨7, 16⟩] 16 := by
      intro span hspan
      rw [List.mem_singleton] at hspan
      subst hspan
      exact .inr (Nat.le_refl 16)
    rcases Nat.eq_or_lt_of_le hstop with rfl | hbehind
    · cases hbyte
      rfl
    · exact absurd rfl (hline 16 (Nat.le_refl 16) hbehind hnewline)
  exact ⟨h, hfind, (strip_strip_scan h).1⟩

end DebugSweep.Strip
