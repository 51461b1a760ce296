import DebugSweep.Proofs.Source.Candidate
import DebugSweep.Proofs.Source.Lexing

/-!
# Reading a call byte by byte and lexeme by lexeme

A debug-output call is read from the bytes of a text by `candidate` and from its lexemes by
`candidateOf`. `candidate_textOf` says that both see the same: an argument list closes at the end
of the lexeme at which the parentheses balance, since every comment, literal and identifier is
passed over as a whole, and blanks are lexemes of their own.
-/

namespace DebugSweep

namespace Byte

/-- A byte of an identifier has no other meaning. -/
theorem isWord_exclusive {b : UInt8} (h : isWord b = true) :
    b ≠ slash ∧ isQuote b = false ∧ b ≠ openParen ∧ b ≠ closeParen ∧ isBlank b = false := by
  refine ⟨?_, Bool.eq_false_iff.mpr fun hquote => ?_, ?_, ?_,
    Bool.eq_false_iff.mpr fun hblank => ?_⟩
  · rintro rfl; exact absurd h (by decide)
  · simp only [isQuote, Bool.or_eq_true, beq_iff_eq] at hquote
    rcases hquote with rfl | rfl <;> exact absurd h (by decide)
  · rintro rfl; exact absurd h (by decide)
  · rintro rfl; exact absurd h (by decide)
  · simp only [isBlank, Bool.or_eq_true, beq_iff_eq] at hblank
    rcases hblank with (((rfl | rfl) | rfl) | rfl) | rfl <;> exact absurd h (by decide)

/-- An identifier begins with one of its bytes. -/
theorem isWord_of_isWordStart {b : UInt8} (h : isWordStart b = true) : isWord b = true := by
  rw [isWord, h, Bool.true_or]

end Byte

namespace Source

/-- A statement begins after no byte of an identifier. -/
theorem isBoundary_of_isWord {b : UInt8} (h : Byte.isWord b = true) : isBoundary b = false := by
  refine Bool.eq_false_iff.mpr fun hboundary => ?_
  simp only [isBoundary, Bool.or_eq_true, beq_iff_eq] at hboundary
  rcases hboundary with (rfl | rfl) | rfl <;> exact absurd h (by decide)

/-- No blank and no byte after which a statement can begin belongs to an identifier. -/
theorem isWord_of_isBlank_or_isBoundary {b : UInt8}
    (h : Byte.isBlank b = true ∨ isBoundary b = true) : Byte.isWord b = false := by
  rw [← Bool.not_eq_true]
  intro hword
  rcases h with hblank | hboundary
  · rw [(Byte.isWord_exclusive hword).2.2.2.2] at hblank
    cases hblank
  · rw [isBoundary_of_isWord hword] at hboundary
    cases hboundary

/-- A comment or literal begins with a slash, a quote or the mark of a raw literal. -/
theorem opening_byte {inWord : Bool} {b : UInt8} {rest : Bytes} {n : Nat}
    (h : triviaLength? inWord (b :: rest) = some n) :
    b = Byte.slash ∨ Byte.isQuote b = true ∨ (b = Byte.letterR ∧ inWord = false) := by
  rw [triviaLength?_eq, Option.map_eq_some_iff] at h
  obtain ⟨opened, hopen, -⟩ := h
  rcases opening?_cases hopen with ⟨hslash, -⟩ | ⟨hquote, -⟩ | ⟨hletter, hword, -⟩
  · exact .inl hslash
  · exact .inr (.inl hquote)
  · exact .inr (.inr ⟨hletter, hword⟩)

/-- Neither a comment nor a literal opens inside an identifier. -/
theorem triviaLength?_of_isWord {b : UInt8} (h : Byte.isWord b = true) (rest : Bytes) :
    triviaLength? true (b :: rest) = none := by
  obtain ⟨hslash, hquote, -⟩ := Byte.isWord_exclusive h
  cases htrivia : triviaLength? true (b :: rest) with
  | none => rfl
  | some n =>
    rcases opening_byte htrivia with hb | hb | ⟨-, hb⟩
    · exact absurd hb hslash
    · rw [hquote] at hb; cases hb
    · cases hb

/-- After identifier bytes one stands directly before. -/
theorem wordAfter_of_forall {text : Bytes} (h : ∀ c ∈ text, Byte.isWord c = true) :
    wordAfter true text = true := by
  induction text with
  | nil => rfl
  | cons b text ih =>
    rw [wordAfter_cons, h b List.mem_cons_self]
    exact ih fun c hc => h c (List.mem_cons_of_mem _ hc)

/-- An argument list passes over a byte that is no parenthesis. -/
theorem closing?_arguments_other {inWord : Bool} {b : UInt8} {rest : Bytes}
    (htrivia : triviaLength? inWord (b :: rest) = none) (hopen : b ≠ Byte.openParen)
    (hclose : b ≠ Byte.closeParen) (nested : Nat) :
    closing? [.arguments nested] inWord (b :: rest) =
      (closing? [.arguments nested] (Byte.isWord b) rest).map (1 + ·) := by
  rw [closing?_arguments_byte htrivia]
  simp only [countNested, if_neg hopen, if_neg hclose]

/-- An argument list passes over the rest of an identifier. -/
theorem closing?_arguments_word {text : Bytes} (h : ∀ c ∈ text, Byte.isWord c = true)
    (nested : Nat) (rest : Bytes) :
    closing? [.arguments nested] true (text ++ rest) =
      (closing? [.arguments nested] true rest).map (text.length + ·) := by
  induction text with
  | nil => simp
  | cons b text ih =>
    have hb := h b List.mem_cons_self
    obtain ⟨-, -, hopen, hclose, -⟩ := Byte.isWord_exclusive hb
    rw [List.cons_append, closing?_arguments_other (triviaLength?_of_isWord hb _) hopen hclose,
      hb, ih fun c hc => h c (List.mem_cons_of_mem _ hc), map_add_map, List.length_cons,
      Nat.add_comm]

/-- The bytes of an argument list that takes one lexeme more. -/
theorem map_length_take_succ (lexeme : Lexeme) (rest : List Lexeme) (count? : Option Nat) :
    (count?.map (· + 1)).map (fun count => (textOf ((lexeme :: rest).take count)).length) =
      (count?.map fun count => (textOf (rest.take count)).length).map
        (lexeme.text.length + ·) := by
  simp only [Option.map_map]
  congr 1
  funext count
  simp

/-- An argument list closes at the end of the lexeme at which its parentheses balance. -/
theorem Lexed.closing?_arguments {inWord : Bool} {lexemes : List Lexeme}
    (h : Lexed inWord lexemes) (nested : Nat) :
    closing? [.arguments nested] inWord (textOf lexemes) =
      (argumentCount? nested lexemes).map fun count => (textOf (lexemes.take count)).length := by
  induction h generalizing nested with
  | nil => rfl
  | @cons inWord lexeme rest hhead _ ih =>
    have trivia {kind : LexemeKind} {text : Bytes} (hkind : kind ≠ .byte)
        (hlexeme : lexeme = ⟨kind, text⟩)
        (htrivia : triviaLength? inWord (text ++ textOf rest) = some text.length) :
        closing? [.arguments nested] inWord (textOf (lexeme :: rest)) =
          (argumentCount? nested (lexeme :: rest)).map fun count =>
            (textOf ((lexeme :: rest).take count)).length := by
      subst hlexeme
      rw [textOf_cons, closing?_arguments_trivia htrivia, List.take_left, List.drop_left, ih,
        argumentCount?_cons (Lexeme.isByte_of_kind hkind _) (Lexeme.isByte_of_kind hkind _),
        map_length_take_succ]
    cases hhead with
    | comment hslash htrivia => exact trivia (by simp) rfl htrivia
    | literal hslash htrivia => exact trivia (by simp) rfl htrivia
    | @word b text _ hstart hinside hend htrivia =>
      have hb := Byte.isWord_of_isWordStart hstart
      obtain ⟨-, -, hopen, hclose, -⟩ := Byte.isWord_exclusive hb
      rw [wordAfter_cons, hb, wordAfter_of_forall hinside] at ih
      rw [textOf_cons, List.cons_append, closing?_arguments_other htrivia hopen hclose, hb,
        closing?_arguments_word hinside, ih,
        argumentCount?_cons (Lexeme.isByte_of_kind (by simp) _)
          (Lexeme.isByte_of_kind (by simp) _), map_length_take_succ, map_add_map, Nat.add_comm 1]
      rfl
    | @byte b _ hstart htrivia =>
      rw [textOf_cons, List.singleton_append, closing?_arguments_byte htrivia]
      -- both sides go on with the same parentheses open
      have step {inner : Nat} (hcount : argumentCount? nested (⟨.byte, [b]⟩ :: rest) =
            (argumentCount? inner rest).map (· + 1)) :
          (closing? [.arguments inner] (Byte.isWord b) (textOf rest)).map (1 + ·) =
            (argumentCount? nested (⟨.byte, [b]⟩ :: rest)).map fun count =>
              (textOf (List.take count (⟨.byte, [b]⟩ :: rest))).length := by
        rw [hcount, map_length_take_succ]
        exact congrArg _ (ih inner)
      by_cases hopen : b = Byte.openParen
      · subst hopen
        exact step (argumentCount?_openParen _ _)
      · by_cases hclose : b = Byte.closeParen
        · subst hclose
          cases nested with
          | zero =>
            have hclosed : countNested .arguments Byte.openParen Byte.closeParen 0 []
                Byte.closeParen = [] := rfl
            have hcount := argumentCount?_closeParen_zero rest
            rw [Lexeme.single] at hcount
            rw [hclosed, closing?_no_regions, hcount]
            rfl
          | succ nested => exact step (argumentCount?_closeParen_succ _ _)
        · have hbyte {c : UInt8} (hc : b ≠ c) : Lexeme.isByte c ⟨.byte, [b]⟩ = false := by
            rw [← Bool.not_eq_true, Lexeme.isByte_iff]
            intro hsingle
            injection hsingle with _ htext
            exact hc (List.cons.inj htext).1
          simp only [countNested, if_neg hopen, if_neg hclose]
          exact step (argumentCount?_cons (hbyte hopen) (hbyte hclose) _ _)

/-- The first byte of a lexeme tells blanks and single bytes outside identifiers from the rest. -/
theorem Lexeme.Heads.exists_cons {inWord : Bool} {lexeme : Lexeme} {rest : Bytes}
    (h : lexeme.Heads inWord rest) :
    ∃ b text, lexeme.text = b :: text ∧ Byte.isBlank b = lexeme.isBlank ∧
      (b = terminator ↔ lexeme = .single terminator) := by
  have trivia {b : UInt8} {n : Nat} {text : Bytes} {kind : LexemeKind} (hkind : kind ≠ .byte)
      (htrivia : triviaLength? inWord (b :: (text ++ rest)) = some n) :
      Byte.isBlank b = Lexeme.isBlank ⟨kind, b :: text⟩ ∧
        (b = terminator ↔ (⟨kind, b :: text⟩ : Lexeme) = .single terminator) := by
    have hb : Byte.isBlank b = false ∧ b ≠ terminator := by
      rcases opening_byte htrivia with rfl | hquote | ⟨rfl, -⟩
      · decide
      · simp only [Byte.isQuote, Bool.or_eq_true, beq_iff_eq] at hquote
        rcases hquote with rfl | rfl <;> decide
      · decide
    constructor
    · rw [hb.1, Lexeme.isBlank, beq_false_of_ne hkind, Bool.false_and]
    · exact ⟨fun hterminator => absurd hterminator hb.2,
        fun hsingle => absurd (congrArg Lexeme.kind hsingle) hkind⟩
  cases h with
  | @comment text _ hslash htrivia =>
    cases text with
    | nil => cases hslash
    | cons b text => exact ⟨b, text, rfl, trivia (by simp) htrivia⟩
  | @literal text _ hslash htrivia =>
    cases text with
    | nil => exact absurd (triviaLength?_pos htrivia) (Nat.lt_irrefl 0)
    | cons b text => exact ⟨b, text, rfl, trivia (by simp) htrivia⟩
  | @word b text _ hstart hinside hend htrivia =>
    have hb := Byte.isWord_of_isWordStart hstart
    refine ⟨b, text, rfl, (Byte.isWord_exclusive hb).2.2.2.2, fun hterminator => ?_,
      fun hsingle => absurd (congrArg Lexeme.kind hsingle) (by simp [Lexeme.single])⟩
    subst hterminator
    exact absurd hb (by decide)
  | @byte b _ hstart htrivia =>
    refine ⟨b, [], rfl, by simp [Lexeme.isBlank], ?_, ?_⟩
    · rintro rfl; rfl
    · intro hsingle
      injection hsingle with _ htext
      exact (List.cons.inj htext).1

/-- A blank lexeme is a single byte. -/
theorem Lexeme.Heads.eq_single_of_isBlank {inWord : Bool} {lexeme : Lexeme} {rest : Bytes}
    (h : lexeme.Heads inWord rest) (hblank : lexeme.isBlank = true) :
    ∃ b, lexeme = .single b ∧ Byte.isBlank b = true := by
  rw [Lexeme.isBlank, Bool.and_eq_true, beq_iff_eq] at hblank
  cases h with
  | comment hslash htrivia => cases hblank.1
  | literal hslash htrivia => cases hblank.1
  | word hstart hinside hend htrivia => cases hblank.1
  | @byte b _ hstart htrivia => exact ⟨b, rfl, by simpa using hblank.2⟩

/-- The blanks at the head of a text are its first lexemes. -/
theorem Lexed.takeWhile_isBlank {inWord : Bool} {lexemes : List Lexeme}
    (h : Lexed inWord lexemes) :
    (textOf lexemes).takeWhile Byte.isBlank = textOf (lexemes.takeWhile Lexeme.isBlank) ∧
      (textOf lexemes).dropWhile Byte.isBlank = textOf (lexemes.dropWhile Lexeme.isBlank) := by
  induction h with
  | nil => exact ⟨rfl, rfl⟩
  | @cons inWord lexeme rest hhead _ ih =>
    cases hblank : lexeme.isBlank with
    | true =>
      obtain ⟨b, rfl, hb⟩ := hhead.eq_single_of_isBlank hblank
      simp [Lexeme.single, hb, ih, show Lexeme.isBlank ⟨.byte, [b]⟩ = true from hblank]
    | false =>
      obtain ⟨b, text, htext, hb, -⟩ := hhead.exists_cons
      rw [hblank] at hb
      simp [htext, hb, hblank]

/-- Whether a text begins with the terminator shows in its first lexeme. -/
theorem Lexed.head?_eq_terminator {inWord : Bool} {lexemes : List Lexeme}
    (h : Lexed inWord lexemes) :
    (textOf lexemes).head? = some terminator ↔
      lexemes.head?.any (Lexeme.isByte terminator) = true := by
  cases h with
  | nil => simp
  | @cons _ lexeme rest hhead _ =>
    obtain ⟨b, text, htext, -, hb⟩ := hhead.exists_cons
    simpa [htext] using hb

/-- Whether the terminator comes next, blanks aside, shows in the lexemes. -/
theorem Lexed.terminates_iff {inWord : Bool} {lexemes : List Lexeme} (h : Lexed inWord lexemes) :
    ((textOf lexemes).dropWhile Byte.isBlank).head? = some terminator ↔
      terminates lexemes = true := by
  have hboth : Lexed inWord
      (lexemes.takeWhile Lexeme.isBlank ++ lexemes.dropWhile Lexeme.isBlank) := by
    rwa [List.takeWhile_append_dropWhile]
  rw [h.takeWhile_isBlank.2, terminates, hboth.of_append.head?_eq_terminator]

/-- A call is opened by its name and a parenthesis. -/
theorem callOpening?_append {name : Bytes} (hname : name ∈ callNames) (rest : Bytes) :
    callOpening? (name ++ Byte.openParen :: rest) = some (name.length + 1) := by
  simp only [callNames, List.mem_cons, List.not_mem_nil, or_false] at hname
  rcases hname with rfl | rfl <;> rfl

/-- Nothing else opens a call. -/
theorem exists_of_callOpening? {text : Bytes} {n : Nat} (h : callOpening? text = some n) :
    ∃ name ∈ callNames, ∃ rest, text = name ++ Byte.openParen :: rest := by
  rw [callOpening?, Option.map_eq_some_iff] at h
  obtain ⟨name, hfind, -⟩ := h
  have hprefix : (name ++ [Byte.openParen]).isPrefixOf text = true := by
    simpa using List.find?_some hfind
  obtain ⟨rest, hrest⟩ := List.isPrefixOf_iff_prefix.mp hprefix
  exact ⟨name, List.mem_of_find?_eq_some hfind, rest, by rw [← hrest, List.append_assoc]; rfl⟩

/-- A call name before a byte outside identifiers is a lexeme. -/
theorem heads_callName {name rest : Bytes} (hname : name ∈ callNames) (inWord : Bool)
    (hend : ∀ c, rest.head? = some c → Byte.isWord c = false) :
    Lexeme.Heads inWord ⟨.word, name⟩ rest := by
  simp only [callNames, List.mem_cons, List.not_mem_nil, or_false] at hname
  rcases hname with rfl | rfl <;>
    exact .word rfl (fun c hc => List.all_eq_true.mp rfl c hc) hend rfl

/-- A parenthesis is a lexeme. -/
theorem heads_openParen (inWord : Bool) (rest : Bytes) :
    (Lexeme.single Byte.openParen).Heads inWord rest := .byte rfl rfl

/-- A text that opens a call has the name and the parenthesis as its first lexemes. -/
theorem Lexed.exists_of_callOpening? {inWord : Bool} {lexemes : List Lexeme}
    (h : Lexed inWord lexemes) {n : Nat} (hcall : callOpening? (textOf lexemes) = some n) :
    ∃ name ∈ callNames, ∃ rest, lexemes = ⟨.word, name⟩ :: .single Byte.openParen :: rest := by
  obtain ⟨name, hname, rest, htext⟩ := Source.exists_of_callOpening? hcall
  have hhead : Lexeme.Heads inWord ⟨.word, name⟩ (Byte.openParen :: rest) :=
    heads_callName hname inWord fun c hc => by cases hc; rfl
  have hcut := h.lexemesFrom_textOf
  rw [htext, lexemesFrom_of_heads hhead] at hcut
  have hopening := lexemesFrom_of_heads
    (heads_openParen (wordAfter inWord name) rest)
  rw [Lexeme.single, List.singleton_append] at hopening
  rw [hopening] at hcut
  exact ⟨name, hname, _, hcut.symm⟩

/-- A statement measured in the bytes of its lexemes. -/
def Candidate.inBytes (lexemes : List Lexeme) : Candidate → Candidate
  | .statement count => .statement (textOf (lexemes.take count)).length
  | .unclosed => .unclosed
  | .other => .other

/-- Lexemes that open no call are no candidate. -/
theorem candidateOf_of_callOpening?_none {lexemes : List Lexeme}
    (h : callOpening? (textOf lexemes) = none) : candidateOf lexemes = .other := by
  unfold candidateOf
  split
  · rename_i name opening rest
    split
    · rename_i hcall
      rw [Bool.and_eq_true, Lexeme.isByte_iff, Lexeme.isCallName_iff] at hcall
      obtain ⟨⟨name, hname, rfl⟩, rfl⟩ := hcall
      rw [textOf_cons, textOf_cons, Lexeme.single, List.singleton_append,
        callOpening?_append hname] at h
      cases h
    · rfl
  · rfl

/-- A statement is as long as its name, its parenthesis, its arguments, its blanks and its
terminator. -/
theorem length_textOf_take_statement (name : Bytes) (arguments after : List Lexeme)
    (hterminates : terminates after = true) :
    (textOf (List.take (arguments.length + (after.takeWhile Lexeme.isBlank).length + 3)
      (⟨.word, name⟩ :: .single Byte.openParen :: (arguments ++ after)))).length =
      name.length + 1 + (textOf arguments).length +
        (textOf (after.takeWhile Lexeme.isBlank)).length + 1 := by
  obtain ⟨tail, htail⟩ := exists_of_terminates hterminates
  have hsplit : (⟨.word, name⟩ :: .single Byte.openParen :: (arguments ++ after) : List Lexeme) =
      (⟨.word, name⟩ :: .single Byte.openParen ::
        (arguments ++ (after.takeWhile Lexeme.isBlank ++ [.single terminator]))) ++ tail := by
    rw [List.cons_append, List.cons_append, List.append_assoc, List.append_assoc,
      List.singleton_append, ← htail]
  rw [hsplit, List.take_left' (by simp; omega)]
  simp [Lexeme.single]
  omega

/-- The bytes of a text and its lexemes show the same candidate. -/
theorem Lexed.candidate_textOf {inWord : Bool} {lexemes : List Lexeme}
    (h : Lexed inWord lexemes) :
    candidate (textOf lexemes) = (candidateOf lexemes).inBytes lexemes := by
  cases hcall : callOpening? (textOf lexemes) with
  | none =>
    rw [candidateOf_of_callOpening?_none hcall, candidate, hcall]
    rfl
  | some n =>
    obtain ⟨name, hname, rest, rfl⟩ := h.exists_of_callOpening? hcall
    have htext : textOf (⟨.word, name⟩ :: .single Byte.openParen :: rest) =
        name ++ Byte.openParen :: textOf rest := rfl
    have hrest : Lexed false rest := by
      cases h with
      | cons _ htail =>
        cases htail with
        | cons _ hrest => exact hrest
    have hopened :
        (name ++ Byte.openParen :: textOf rest).drop (name.length + 1) = textOf rest := by
      simp
    have hcallName : Lexeme.isCallName ⟨.word, name⟩ = true :=
      Lexeme.isCallName_iff.mpr ⟨name, hname, rfl⟩
    simp only [candidate, htext, callOpening?_append hname, closeLength?_passed (name.length + 1),
      hopened, candidateOf, hcallName, Lexeme.isByte_iff.mpr rfl, Bool.and_self, ↓reduceIte]
    have hclosing := hrest.closing?_arguments 0
    rw [closing?] at hclosing
    rw [hclosing]
    cases hcount : argumentCount? 0 rest with
    | none => rfl
    | some count =>
      obtain ⟨arguments, after, rfl, rfl, -⟩ := exists_arguments hcount
      have hafter : ((name ++ Byte.openParen :: textOf (arguments ++ after)).drop
          (name.length + 1 + (textOf arguments).length)) = textOf after := by
        rw [← List.drop_drop, hopened, textOf_append, List.drop_left]
      have hterminates := hrest.of_append.terminates_iff
      have hblanks := hrest.of_append.takeWhile_isBlank.1
      have hdrop : (textOf after).drop ((textOf after).takeWhile Byte.isBlank).length =
          (textOf after).dropWhile Byte.isBlank := by
        simpa only [List.takeWhile_append_dropWhile] using
          @List.drop_left _ ((textOf after).takeWhile Byte.isBlank)
            ((textOf after).dropWhile Byte.isBlank)
      rw [← hdrop, hblanks] at hterminates
      simp only [Option.map_some, List.take_left, List.drop_left, ← List.drop_drop, hafter,
        hblanks]
      by_cases hend : terminates after = true
      · rw [if_pos (hterminates.mpr hend), if_pos hend, Candidate.inBytes,
          length_textOf_take_statement name arguments after hend]
      · rw [if_neg (mt hterminates.mp hend), if_neg hend, Candidate.inBytes]

end Source

end DebugSweep
