import DebugSweep.Proofs.Source.Lookahead
import DebugSweep.Proofs.Source.Segment
import DebugSweep.Strip.Strategy

/-!
# The lexemes of a stripped text

The marker is a line comment, so it takes in whatever is kept after a statement on its line.
`relexed` reads the lexemes of a stripped text off the segments of the original one: on other lines
they are the lexemes that were kept, and from a marker on everything up to the end of the line is
one comment.

Elsewhere no lexeme changes, since a lexeme before a statement does not look at what follows it, and
any other lexeme is followed by the same byte as before. Only where a line ends inside a comment or
a literal does `relexed` cut the rest of the text anew.
-/

namespace DebugSweep.Strip

open Source

/-- The text of segments with each statement replaced by the marker. -/
def strippedOf (segments : List Segment) : Bytes :=
  segments.flatMap fun
    | .kept lexeme => lexeme.text
    | .statement _ => marker

@[simp] theorem strippedOf_kept (lexeme : Lexeme) (rest : List Segment) :
    strippedOf (.kept lexeme :: rest) = lexeme.text ++ strippedOf rest := rfl

@[simp] theorem strippedOf_statement (body : List Lexeme) (rest : List Segment) :
    strippedOf (.statement body :: rest) = marker ++ strippedOf rest := rfl

/-- What lies before all ranges is kept. -/
theorem replaceFrom_append {position : Nat} {spans : List Span} {kept : Bytes}
    (h : ∀ span ∈ spans, position + kept.length ≤ span.start ∧ span.start ≤ span.stop)
    (text : Bytes) :
    replaceFrom position spans (kept ++ text) =
      kept ++ replaceFrom (position + kept.length) spans text := by
  cases spans with
  | nil => rfl
  | cons span spans =>
    obtain ⟨hstart, hstop⟩ := h span List.mem_cons_self
    rw [replaceFrom, replaceFrom, List.take_append, List.drop_append,
      List.take_of_length_le (by omega), List.drop_of_length_le (by omega), List.nil_append,
      List.append_assoc, Nat.sub_sub, Nat.sub_sub]

/-- Replacing the statements of segments in their text. -/
theorem replaceFrom_spansOf (position : Nat) (segments : List Segment) :
    replaceFrom position (spansOf position segments) (textOf (lexemesOf segments)) =
      strippedOf segments := by
  induction segments generalizing position with
  | nil => rfl
  | cons segment rest ih =>
    cases segment with
    | kept lexeme =>
      rw [lexemesOf_kept, textOf_cons, spansOf, strippedOf_kept, ← ih,
        replaceFrom_append fun span hspan => le_start_of_mem_spansOf hspan]
    | statement body =>
      rw [lexemesOf_statement, textOf_append, spansOf, replaceFrom, strippedOf_statement]
      simp [ih]

/-- The lexemes of a stripped text, where `comment` is the comment still open, if any. -/
def relexed (comment : Option Bytes) : List Segment → List Lexeme
  | [] => comment.toList.map fun text => ⟨.comment, text⟩
  | .statement _ :: rest => relexed (some (comment.getD [] ++ marker)) rest
  | .kept lexeme :: rest =>
    match comment with
    | none => lexeme :: relexed none rest
    | some text =>
      if Byte.newline ∈ lexeme.text then
        ⟨.comment, text ++ lexeme.text.takeWhile (· != Byte.newline)⟩ :: .single Byte.newline ::
          if lexeme = .single Byte.newline then relexed none rest
          else lexemesFrom 0 false
            ((lexeme.text.dropWhile (· != Byte.newline)).tail ++ strippedOf rest)
      else relexed (some (text ++ lexeme.text)) rest

/-- The open comment ends with its line. -/
theorem exists_relexed_newline (text : Bytes) {lexeme : Lexeme} (h : Byte.newline ∈ lexeme.text)
    (rest : List Segment) :
    ∃ next, relexed (some text) (.kept lexeme :: rest) =
      ⟨.comment, text ++ lexeme.text.takeWhile (· != Byte.newline)⟩ ::
        .single Byte.newline :: next :=
  ⟨_, by rw [relexed, if_pos h]⟩

/-- A newline closes the open comment. -/
theorem relexed_newline (text : Bytes) (rest : List Segment) :
    relexed (some text) (.kept (.single Byte.newline) :: rest) =
      ⟨.comment, text⟩ :: .single Byte.newline :: relexed none rest := by
  have hmem : Byte.newline ∈ (Lexeme.single Byte.newline).text := List.mem_cons_self
  have hline : (Lexeme.single Byte.newline).text.takeWhile (· != Byte.newline) = [] := rfl
  rw [relexed, if_pos hmem, if_pos rfl, hline, List.append_nil]

/-- Any other byte is taken into the open comment. -/
theorem relexed_single {b : UInt8} (hb : b ≠ Byte.newline) (text : Bytes) (rest : List Segment) :
    relexed (some text) (.kept (.single b) :: rest) = relexed (some (text ++ [b])) rest := by
  rw [relexed, if_neg (by simpa [Lexeme.single] using hb.symm)]
  rfl

/-- Where every lexeme is kept nothing changes. -/
@[simp] theorem relexed_map_kept (lexemes : List Lexeme) :
    relexed none (lexemes.map .kept) = lexemes := by
  induction lexemes with
  | nil => rfl
  | cons lexeme rest ih => rw [List.map_cons, relexed, ih]

/-- The marker opens a comment and stays on its line. -/
theorem exists_marker : ∃ text, marker = Byte.slash :: Byte.slash :: text ∧ Byte.newline ∉ text :=
  ⟨_, rfl, by decide⟩

/-- A text in which a byte occurs is what lies before it, the byte and what follows. -/
theorem exists_cut {stop : UInt8} {text : Bytes} (h : stop ∈ text) :
    ∃ tail, text.dropWhile (· != stop) = stop :: tail ∧
      text = text.takeWhile (· != stop) ++ stop :: tail := by
  have hsplit := (List.takeWhile_append_dropWhile (p := (· != stop)) (l := text)).symm
  cases hdrop : text.dropWhile (· != stop) with
  | nil =>
    rw [List.dropWhile_eq_nil_iff] at hdrop
    exact absurd (hdrop _ h) (by simp)
  | cons b tail =>
    have hb := List.head?_dropWhile_not (· != stop) text
    rw [hdrop] at hb hsplit
    simp only [List.head?_cons, bne_eq_false_iff_eq] at hb
    subst hb
    exact ⟨tail, rfl, hsplit⟩

/-- A byte does not occur before its first occurrence. -/
theorem not_mem_cut (stop : UInt8) (text : Bytes) : stop ∉ text.takeWhile (· != stop) :=
  fun h => absurd (List.mem_takeWhile_imp h) (by simp)

/-- The first occurrence of a byte by its index. -/
theorem getElem?_cut {stop : UInt8} {text : Bytes} (h : stop ∈ text) :
    stop ∉ text.take (text.takeWhile (· != stop)).length ∧
      text[(text.takeWhile (· != stop)).length]? = some stop := by
  obtain ⟨tail, -, hsplit⟩ := exists_cut h
  have hcut := not_mem_cut stop text
  generalize text.takeWhile (· != stop) = before at hsplit hcut ⊢
  subst hsplit
  constructor
  · rwa [List.take_left]
  · rw [List.getElem?_append_right (Nat.le_refl _), Nat.sub_self, List.getElem?_cons_zero]

/-- Up to the newline of its line a text is a comment where one is open. -/
theorem lexemesFrom_lineComment {text : Bytes} (htext : Byte.newline ∉ text) (inWord : Bool)
    (rest : Bytes) :
    lexemesFrom 0 inWord (Byte.slash :: Byte.slash :: text ++ Byte.newline :: rest) =
      ⟨.comment, Byte.slash :: Byte.slash :: text⟩ :: .single Byte.newline ::
        lexemesFrom 0 false rest := by
  have hcomment := lexemesFrom_of_heads
    (Lexeme.heads_lineComment htext (.inr (List.head?_cons (l := rest))) inWord)
  have hnewline (inWord : Bool) := lexemesFrom_of_heads
    (Lexeme.heads_single (b := Byte.newline) (.inl rfl) inWord rest)
  rw [hcomment]
  exact congrArg _ (hnewline _)

/-- What is kept before a statement or before another kept lexeme keeps its end. -/
theorem heads_strippedOf {before : List Lexeme} {lexeme : Lexeme} {rest : List Segment}
    (hplaced : Placed (lexeme :: before) rest) {inWord : Bool}
    (hlexed : Lexed inWord (lexeme :: lexemesOf rest)) :
    lexeme.Heads inWord (strippedOf rest) := by
  cases hlexed with
  | cons hhead hrest =>
    cases hplaced with
    | nil => exact hhead
    | @kept _ next rest _ =>
      refine hhead.congr ?_
      cases hrest with
      | cons hnext _ =>
        obtain ⟨b, text, htext⟩ := List.exists_cons_of_ne_nil hnext.text_ne_nil
        rw [lexemesOf_kept, textOf_cons, strippedOf_kept, htext]
        rfl
    | @statement _ body rest hstart hstatement _ =>
      obtain ⟨b, text, hbody, hb⟩ := hstatement.exists_textOf
      rw [lexemesOf_statement, textOf_append, hbody] at hhead
      exact hhead.of_canBeginAfter hstart hb _

/-- The lexemes of a stripped text are read off its segments, at a place where no comment is open
and where one is. -/
theorem lexemesFrom_strippedOf {before : List Lexeme} {segments : List Segment}
    (hplaced : Placed before segments) {inWord : Bool}
    (hlexed : Lexed inWord (lexemesOf segments)) :
    lexemesFrom 0 inWord (strippedOf segments) = relexed none segments ∧
    ∀ inWord' text, Byte.newline ∉ text →
      lexemesFrom 0 inWord' (Byte.slash :: Byte.slash :: text ++ strippedOf segments) =
        relexed (some (Byte.slash :: Byte.slash :: text)) segments := by
  induction hplaced generalizing inWord with
  | nil =>
    refine ⟨rfl, fun inWord' text htext => ?_⟩
    have := lexemesFrom_of_heads (Lexeme.heads_lineComment htext (.inl rfl) inWord')
    exact this
  | @statement before body rest hstart hstatement hrest ih =>
    obtain ⟨marked, hmarker, hmarked⟩ := exists_marker
    obtain ⟨-, hpending⟩ := ih hlexed.of_append
    constructor
    · rw [strippedOf_statement, relexed, hmarker]
      exact hpending _ _ hmarked
    · intro inWord' text htext
      rw [strippedOf_statement, relexed]
      have hboth : Byte.newline ∉ text ++ marker := by
        rw [hmarker]
        simpa [Byte.newline, Byte.slash] using ⟨htext, hmarked⟩
      have := hpending inWord' (text ++ marker) hboth
      simpa using this
  | @kept before lexeme rest hrest ih =>
    have hhead := heads_strippedOf hrest hlexed
    cases hlexed with
    | cons _ hnext =>
      obtain ⟨hsync, hpending⟩ := ih hnext
      constructor
      · rw [strippedOf_kept, relexed, lexemesFrom_of_heads hhead, hsync]
      · intro inWord' text htext
        rw [strippedOf_kept, relexed]
        by_cases hnewline : Byte.newline ∈ lexeme.text
        · obtain ⟨tail, hsplit, hline⟩ := exists_cut hnewline
          have hboth : Byte.newline ∉ text ++ lexeme.text.takeWhile (· != Byte.newline) := by
            rw [List.mem_append, not_or]
            exact ⟨htext, not_mem_cut _ _⟩
          have hcut := lexemesFrom_lineComment hboth inWord' (tail ++ strippedOf rest)
          have hrest : lexemesFrom 0 false (tail ++ strippedOf rest) =
              if lexeme = .single Byte.newline then relexed none rest
              else lexemesFrom 0 false
                ((lexeme.text.dropWhile (· != Byte.newline)).tail ++ strippedOf rest) := by
            split
            · rename_i hsingle
              subst hsingle
              cases hsplit
              exact hsync
            · rw [hsplit, List.tail_cons]
          have htext : lexeme.text ++ strippedOf rest =
              lexeme.text.takeWhile (· != Byte.newline) ++
                Byte.newline :: (tail ++ strippedOf rest) := by
            conv_lhs => rw [hline]
            rw [List.append_assoc, List.cons_append]
          rw [if_pos hnewline, ← hrest, htext]
          simpa using hcut
        · have hboth : Byte.newline ∉ text ++ lexeme.text := by
            rw [List.mem_append, not_or]
            exact ⟨htext, hnewline⟩
          have := hpending inWord' (text ++ lexeme.text) hboth
          rw [if_neg hnewline]
          simpa using this

/-- A text is stripped segment by segment. -/
theorem exists_stripped (text : Bytes) :
    ∃ segments, lexemesOf segments = lexemes text ∧ Segmented [] segments ∧
      findStatements text = spansOf 0 segments ∧
      (strip .scan text).text = strippedOf segments ∧
      lexemes (strip .scan text).text = relexed none segments := by
  obtain ⟨segments, hlexemes, hsegmented, hfind⟩ := exists_segments text
  have htext : (strip .scan text).text = strippedOf segments := by
    rw [strip, hfind, replaceSpans, ← replaceFrom_spansOf 0, hlexemes, textOf_lexemes]
  have hlexed : Lexed false (lexemesOf segments) := hlexemes ▸ lexed_lexemes text
  refine ⟨segments, hlexemes, hsegmented, hfind, htext, ?_⟩
  rw [htext, Source.lexemes, (lexemesFrom_strippedOf hsegmented.placed hlexed).1]

end DebugSweep.Strip
