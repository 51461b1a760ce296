import Mathlib.Data.List.TakeWhile
import DebugSweep.Proofs.Source.Closing
import DebugSweep.Source.Lexeme

/-!
# Cutting a text into lexemes

`Lexeme.Heads` says, for each kind of lexeme, when a lexeme stands at the head of a text, and
`Lexed` that a list of lexemes is the cut of its own text. Cutting a text and putting lexemes
together undo each other: a text is the text of its lexemes, and a list with `Lexed` is what its
text is cut into. A statement about every text can thus be proved by induction on its lexemes.
-/

namespace DebugSweep.Source

/-- The lexeme stands at the head of a text, with `rest` after it. -/
inductive Lexeme.Heads (inWord : Bool) : Lexeme → Bytes → Prop
  | comment {text rest : Bytes} (hslash : text.head? = some Byte.slash)
      (htrivia : triviaLength? inWord (text ++ rest) = some text.length) :
      Lexeme.Heads inWord ⟨.comment, text⟩ rest
  | literal {text rest : Bytes} (hslash : text.head? ≠ some Byte.slash)
      (htrivia : triviaLength? inWord (text ++ rest) = some text.length) :
      Lexeme.Heads inWord ⟨.literal, text⟩ rest
  /-- An identifier takes every byte that can belong to it. -/
  | word {b : UInt8} {text rest : Bytes} (hstart : Byte.isWordStart b = true)
      (hinside : ∀ c ∈ text, Byte.isWord c = true)
      (hend : ∀ c, rest.head? = some c → Byte.isWord c = false)
      (htrivia : triviaLength? inWord (b :: (text ++ rest)) = none) :
      Lexeme.Heads inWord ⟨.word, b :: text⟩ rest
  | byte {b : UInt8} {rest : Bytes} (hstart : Byte.isWordStart b = false)
      (htrivia : triviaLength? inWord (b :: rest) = none) :
      Lexeme.Heads inWord ⟨.byte, [b]⟩ rest

/-- The lexemes are the cut of their own text. -/
inductive Lexed : Bool → List Lexeme → Prop
  | nil {inWord : Bool} : Lexed inWord []
  | cons {inWord : Bool} {lexeme : Lexeme} {rest : List Lexeme}
      (hhead : lexeme.Heads inWord (textOf rest))
      (hrest : Lexed (wordAfter inWord lexeme.text) rest) : Lexed inWord (lexeme :: rest)

/-- The first lexeme is cut off, and the others are the cut of what follows it. -/
theorem Lexed.head_tail {inWord : Bool} {lexeme : Lexeme} {rest : List Lexeme}
    (h : Lexed inWord (lexeme :: rest)) :
    lexeme.Heads inWord (textOf rest) ∧ Lexed (wordAfter inWord lexeme.text) rest := by
  cases h with
  | cons hhead hrest => exact ⟨hhead, hrest⟩

@[simp] theorem textOf_nil : textOf [] = [] := rfl

@[simp] theorem textOf_cons (lexeme : Lexeme) (rest : List Lexeme) :
    textOf (lexeme :: rest) = lexeme.text ++ textOf rest := rfl

@[simp] theorem textOf_append (first second : List Lexeme) :
    textOf (first ++ second) = textOf first ++ textOf second := List.flatMap_append

/-- No lexeme is empty. -/
theorem Lexeme.Heads.text_ne_nil {inWord : Bool} {lexeme : Lexeme} {rest : Bytes}
    (h : lexeme.Heads inWord rest) : lexeme.text ≠ [] := by
  cases h with
  | comment hslash htrivia => rintro rfl; cases hslash
  | literal hslash htrivia =>
    rintro rfl
    exact absurd (triviaLength?_pos htrivia) (Nat.lt_irrefl 0)
  | word hstart hinside hend htrivia => exact List.cons_ne_nil _ _
  | byte hstart htrivia => exact List.cons_ne_nil _ _

/-- Bytes of the lexeme before are passed over. -/
theorem lexemesFrom_skip (inWord : Bool) (passed rest : Bytes) :
    lexemesFrom passed.length inWord (passed ++ rest) =
      lexemesFrom 0 (wordAfter inWord passed) rest := by
  induction passed generalizing inWord with
  | nil => rfl
  | cons b passed ih =>
    rw [List.length_cons, List.cons_append, lexemesFrom, ih, wordAfter_cons]

/-- The first lexeme of a text is cut off as `lexemeAt` says. -/
theorem lexemesFrom_of_lexemeAt {inWord : Bool} {b : UInt8} {text rest : Bytes} {kind : LexemeKind}
    (h : lexemeAt inWord b (text ++ rest) = (kind, text.length + 1)) :
    lexemesFrom 0 inWord (b :: (text ++ rest)) =
      ⟨kind, b :: text⟩ :: lexemesFrom 0 (wordAfter inWord (b :: text)) rest := by
  rw [lexemesFrom, h]
  simp only [Nat.add_sub_cancel, lexemesFrom_skip, wordAfter_cons, List.take_succ_cons,
    List.take_left]

/-- A lexeme at the head of a text is cut off first. -/
theorem lexemesFrom_of_heads {inWord : Bool} {lexeme : Lexeme} {rest : Bytes}
    (h : lexeme.Heads inWord rest) :
    lexemesFrom 0 inWord (lexeme.text ++ rest) =
      lexeme :: lexemesFrom 0 (wordAfter inWord lexeme.text) rest := by
  cases h with
  | @comment text _ hslash htrivia =>
    cases text with
    | nil => cases hslash
    | cons b text =>
      refine lexemesFrom_of_lexemeAt ?_
      rw [lexemeAt, ← List.cons_append, htrivia]
      simp only [Option.some.inj hslash, ↓reduceIte, List.length_cons]
  | @literal text _ hslash htrivia =>
    cases text with
    | nil => exact absurd (triviaLength?_pos htrivia) (Nat.lt_irrefl 0)
    | cons b text =>
      refine lexemesFrom_of_lexemeAt ?_
      have hb : b ≠ Byte.slash := fun hb => hslash (congrArg some hb)
      rw [lexemeAt, ← List.cons_append, htrivia]
      simp only [if_neg hb, List.length_cons]
  | @word b text _ hstart hinside hend htrivia =>
    refine lexemesFrom_of_lexemeAt ?_
    have hrest : rest.takeWhile Byte.isWord = [] := by
      cases rest with
      | nil => rfl
      | cons c tail => simp [hend c rfl]
    rw [lexemeAt, htrivia]
    simp only [hstart, ↓reduceIte, List.takeWhile_append_of_pos hinside, hrest, List.append_nil]
  | @byte b _ hstart htrivia =>
    refine @lexemesFrom_of_lexemeAt inWord b [] rest .byte ?_
    rw [lexemeAt, List.nil_append, htrivia]
    simp [hstart]

/-- Some lexeme stands at the head of every text that has not ended. -/
theorem exists_heads (inWord : Bool) {text : Bytes} (htext : text ≠ []) :
    ∃ (lexeme : Lexeme) (rest : Bytes), text = lexeme.text ++ rest ∧ lexeme.Heads inWord rest := by
  obtain ⟨b, tail, rfl⟩ := List.exists_cons_of_ne_nil htext
  cases htrivia : triviaLength? inWord (b :: tail) with
  | some n =>
    have hsplit := (List.take_append_drop n (b :: tail)).symm
    have hlength : ((b :: tail).take n).length = n :=
      List.length_take_of_le (triviaLength?_le htrivia)
    have hfound : triviaLength? inWord ((b :: tail).take n ++ (b :: tail).drop n) =
        some ((b :: tail).take n).length := by
      rw [← hsplit, htrivia, hlength]
    have hhead : ((b :: tail).take n).head? = some b := by
      obtain ⟨m, rfl⟩ := Nat.exists_eq_add_of_lt (triviaLength?_pos htrivia)
      simp
    by_cases hb : b = Byte.slash
    · exact ⟨_, _, hsplit, .comment (hb ▸ hhead) hfound⟩
    · exact ⟨_, _, hsplit, .literal (fun h => hb (Option.some.inj (hhead.symm.trans h))) hfound⟩
  | none =>
    cases hstart : Byte.isWordStart b with
    | true =>
      have hsplit := (List.takeWhile_append_dropWhile (p := Byte.isWord) (l := tail)).symm
      refine ⟨⟨.word, b :: tail.takeWhile Byte.isWord⟩, tail.dropWhile Byte.isWord,
        congrArg (b :: ·) hsplit, .word hstart (fun c hc => ?_) (fun c hc => ?_) ?_⟩
      · exact List.mem_takeWhile_imp hc
      · have := List.head?_dropWhile_not Byte.isWord tail
        rw [hc] at this
        exact this
      · rw [← hsplit]
        exact htrivia
    | false => exact ⟨⟨.byte, [b]⟩, tail, rfl, .byte hstart htrivia⟩

/-- A list that is the cut of its own text is what that text is cut into. -/
theorem Lexed.lexemesFrom_textOf {inWord : Bool} {lexemes : List Lexeme}
    (h : Lexed inWord lexemes) : lexemesFrom 0 inWord (textOf lexemes) = lexemes := by
  induction h with
  | nil => rfl
  | cons hhead _ ih => rw [textOf_cons, lexemesFrom_of_heads hhead, ih]

/-- Every text is the text of a list that is the cut of its own text. -/
theorem exists_lexed (inWord : Bool) (text : Bytes) :
    ∃ lexemes, textOf lexemes = text ∧ Lexed inWord lexemes := by
  induction hlength : text.length using Nat.strong_induction_on generalizing inWord text with
  | _ length ih =>
    subst hlength
    by_cases htext : text = []
    · exact ⟨[], htext.symm, .nil⟩
    · obtain ⟨lexeme, rest, rfl, hhead⟩ := exists_heads inWord htext
      have positive := List.length_pos_of_ne_nil hhead.text_ne_nil
      obtain ⟨lexemes, rfl, hlexed⟩ :=
        ih rest.length (by rw [List.length_append]; omega) (wordAfter inWord lexeme.text) rest rfl
      exact ⟨lexeme :: lexemes, rfl, .cons hhead hlexed⟩

/-- The lexemes of a text are the cut of their own text. -/
theorem lexed_lexemes (text : Bytes) : Lexed false (lexemes text) := by
  obtain ⟨lexemes, rfl, hlexed⟩ := exists_lexed false text
  rw [Source.lexemes, hlexed.lexemesFrom_textOf]
  exact hlexed

/-- Nothing is lost when a text is cut. -/
@[simp] theorem textOf_lexemes (text : Bytes) : textOf (lexemes text) = text := by
  obtain ⟨lexemes, rfl, hlexed⟩ := exists_lexed false text
  rw [Source.lexemes, hlexed.lexemesFrom_textOf]

/-- What follows some of the lexemes is again the cut of its own text. -/
theorem Lexed.of_append {inWord : Bool} {first second : List Lexeme}
    (h : Lexed inWord (first ++ second)) : Lexed (wordAfter inWord (textOf first)) second := by
  induction first generalizing inWord with
  | nil => exact h
  | cons lexeme first ih =>
    cases h with
    | cons hhead hrest =>
      rw [textOf_cons, wordAfter_append]
      exact ih hrest

end DebugSweep.Source
