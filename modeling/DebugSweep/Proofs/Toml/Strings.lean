import Mathlib.Algebra.Group.Nat.Defs
import Mathlib.Data.List.Basic
import Mathlib.Tactic.SplitIfs
import DebugSweep.Toml.Document

/-!
# Strings and keys read as they were written

A basic string may be written in many ways: every character can be written by its code point, some
have a short escape, and most may stand for themselves (`Spells`). Whichever is chosen, the string
is read as what it stands for, and so is a key, written as a bare word or as a string.

`Reads` cuts the reading of a text into stretches: what one stretch gives does not depend on what
has been read before, and on what follows only where it says so.
-/

namespace DebugSweep.Toml

/-- A hexadecimal digit, in upper or in lower case. -/
structure HexDigit where
  value : Fin 16
  upper : Bool
  deriving DecidableEq, Repr

/-- The character of a digit. -/
def HexDigit.char (digit : HexDigit) : Char :=
  (if digit.upper then "0123456789ABCDEF" else "0123456789abcdef").toList.getD digit.value '0'

/-- The number that digits write, with `code` written before them. -/
def codeFrom (code : Nat) (digits : List HexDigit) : Nat :=
  digits.foldl (fun code digit => code * 16 + digit.value) code

/-- The letters that stand for a character after a backslash. -/
def shortEscapes : List (Char × Char) :=
  [('b', '\x08'), ('t', '\t'), ('n', '\n'), ('f', '\x0c'), ('r', '\r'), ('e', '\x1b'), ('"', '"'),
    ('\\', '\\')]

/-- The letters after a backslash that announce a code point, with its number of digits. -/
def codeEscapes : List (Char × Nat) := [('x', 2), ('u', 4), ('U', 8)]

/-- The ways to write a character in a basic string. -/
inductive Spells : Char → List Char → Prop where
  | plain {c : Char} (hquote : c ≠ '"') (hbackslash : c ≠ '\\') (hcontrol : isControl c = false) :
    Spells c [c]
  | short {c letter : Char} (h : (letter, c) ∈ shortEscapes) : Spells c ['\\', letter]
  | code {c letter : Char} {digits : List HexDigit} (h : (letter, digits.length) ∈ codeEscapes)
    (hcode : codeFrom 0 digits = c.toNat) :
    Spells c ('\\' :: letter :: digits.map HexDigit.char)

/-- The ways to write a text between the quotes of a basic string. -/
inductive SpellsText : List Char → List Char → Prop where
  | nil : SpellsText [] []
  | cons {c : Char} {spelling text body : List Char} (hc : Spells c spelling)
    (htext : SpellsText text body) : SpellsText (c :: text) (spelling ++ body)

/-- The ways to write a string as a basic string. -/
def WritesString (text written : List Char) : Prop :=
  ∃ body, SpellsText text body ∧ written = '"' :: (body ++ ['"'])

/-- The ways to write the name of a key. -/
inductive WritesKey : List Char → List Char → Prop where
  | bare {word : List Char} (hne : word ≠ []) (h : ∀ c ∈ word, isBare c = true) :
    WritesKey word word
  | basic {name written : List Char} (h : WritesString name written) : WritesKey name written
  | literal {name : List Char} (h : ∀ c ∈ name, c ≠ '\'' ∧ isControl c = false) :
    WritesKey name ('\'' :: (name ++ ['\'']))

section Code

/-- The digits of a number, in lower case. -/
def hexDigits : (width : Nat) → Nat → List HexDigit
  | 0, _ => []
  | width + 1, n => hexDigits width (n / 16) ++ [⟨Fin.ofNat 16 n, false⟩]

theorem length_hexDigits (width n : Nat) : (hexDigits width n).length = width := by
  induction width generalizing n with
  | zero => rfl
  | succ width ih => rw [hexDigits, List.length_append, ih, List.length_singleton]

/-- The digits of a number write it if there are enough of them. -/
theorem codeFrom_hexDigits {width n : Nat} (h : n < 16 ^ width) :
    codeFrom 0 (hexDigits width n) = n := by
  induction width generalizing n with
  | zero =>
    rw [Nat.pow_zero, Nat.lt_one_iff] at h
    rw [h]
    rfl
  | succ width ih =>
    have hquotient : n / 16 < 16 ^ width := by
      rw [Nat.pow_succ] at h
      omega
    have hrest := ih hquotient
    rw [codeFrom] at hrest ⊢
    rw [hexDigits, List.foldl_append, hrest, List.foldl_cons, List.foldl_nil, Fin.val_ofNat]
    omega

/-- A character the way it is usually written: by its short escape if it has one, and otherwise by
its code point if it is a control character. -/
def escaped (c : Char) : List Char :=
  match shortEscapes.find? (·.2 == c) with
  | some (letter, _) => ['\\', letter]
  | none =>
    if isControl c then '\\' :: 'u' :: (hexDigits 4 c.toNat).map HexDigit.char else [c]

/-- A text the way it is usually written. -/
def writeString (text : List Char) : List Char := '"' :: (text.flatMap escaped ++ ['"'])

/-- The way a character is usually written is one of the ways to write it. -/
theorem spells_escaped (c : Char) : Spells c (escaped c) := by
  rw [escaped]
  split
  · rename_i letter meaning hfind
    have hsame := List.find?_some hfind
    obtain rfl : meaning = c := eq_of_beq hsame
    exact .short (List.mem_of_find?_eq_some hfind)
  · rename_i hfind
    have hnot : ∀ short ∈ shortEscapes, short.2 ≠ c := fun short hmem hsame =>
      List.find?_eq_none.mp hfind short hmem (beq_iff_eq.mpr hsame)
    split_ifs with hcontrol
    · have hsmall : c.toNat < 16 ^ 4 := by
        simp only [isControl, Bool.or_eq_true, Bool.and_eq_true, decide_eq_true_eq,
          beq_iff_eq] at hcontrol
        omega
      refine .code ?_ (codeFrom_hexDigits hsmall)
      rw [length_hexDigits]
      decide
    · have hquote : '"' ≠ c := hnot ('"', '"') (by decide)
      have hbackslash : '\\' ≠ c := hnot ('\\', '\\') (by decide)
      exact .plain hquote.symm hbackslash.symm (Bool.eq_false_iff.mpr hcontrol)

/-- Every text can be written as a string. -/
theorem writesString_writeString (text : List Char) : WritesString text (writeString text) := by
  refine ⟨text.flatMap escaped, ?_, rfl⟩
  induction text with
  | nil => exact .nil
  | cons c text ih => exact .cons (spells_escaped c) ih

/-- A digit is read as its value. -/
theorem hexValue?_char (digit : HexDigit) : hexValue? digit.char = some digit.value.val := by
  obtain ⟨value, upper⟩ := digit
  revert value upper
  decide

/-- Digits are read as the number that they write. -/
theorem hexNumber?_append (code : Nat) (digits : List HexDigit) (rest : List Char) :
    hexNumber? code digits.length (digits.map HexDigit.char ++ rest) =
      some (codeFrom code digits) := by
  induction digits generalizing code with
  | nil => rw [List.length_nil, hexNumber?]; rfl
  | cons digit digits ih =>
    rw [List.length_cons, List.map_cons, List.cons_append, hexNumber?, hexValue?_char]
    exact ih (code * 16 + digit.value)

/-- The digits of the code point of a character are read as the character. -/
theorem codePoint?_append {c : Char} {digits : List HexDigit} (h : codeFrom 0 digits = c.toNat)
    (rest : List Char) :
    codePoint? digits.length (digits.map HexDigit.char ++ rest) = some c := by
  have hvalid : c.toNat.isValidChar := c.valid
  rw [codePoint?, hexNumber?_append, h]
  simp only [Option.bind_eq_bind, Option.bind_some, if_pos hvalid, Char.ofNat_toNat]

/-- A letter that announces a code point is followed by its digits. -/
theorem escape?_of_mem_codeEscapes {letter : Char} {width : Nat} (h : (letter, width) ∈ codeEscapes)
    (rest : List Char) :
    escape? (letter :: rest) = (codePoint? width rest).map (·, width + 1) := by
  simp only [codeEscapes, List.mem_cons, Prod.mk.injEq, List.not_mem_nil, or_false] at h
  rcases h with ⟨rfl, rfl⟩ | ⟨rfl, rfl⟩ | ⟨rfl, rfl⟩ <;> rfl

/-- A letter that stands for a character is read as it. -/
theorem escape?_of_mem_shortEscapes {letter c : Char} (h : (letter, c) ∈ shortEscapes)
    (rest : List Char) : escape? (letter :: rest) = some (c, 1) := by
  simp only [shortEscapes, List.mem_cons, Prod.mk.injEq, List.not_mem_nil, or_false] at h
  rcases h with ⟨rfl, rfl⟩ | ⟨rfl, rfl⟩ | ⟨rfl, rfl⟩ | ⟨rfl, rfl⟩ | ⟨rfl, rfl⟩ | ⟨rfl, rfl⟩ |
    ⟨rfl, rfl⟩ | ⟨rfl, rfl⟩ <;> rfl

end Code

/-- The stretch of a text is read as these tokens, and the reader goes over from `reading` to
`next`, where `rest` follows. -/
def Reads (reading : Reading) (stretch rest : List Char) (tokens : List Token) (next : Reading) :
    Prop :=
  tokensFrom? 0 reading (stretch ++ rest) = (tokensFrom? 0 next rest).map (tokens ++ ·)

/-- What belongs to the step just taken is passed over. -/
theorem tokensFrom?_skip (passed rest : List Char) (reading : Reading) :
    tokensFrom? passed.length reading (passed ++ rest) = tokensFrom? 0 reading rest := by
  induction passed with
  | nil => rfl
  | cons c passed ih =>
    rw [List.length_cons, List.cons_append, tokensFrom?]
    exact ih

namespace Reads

variable {reading next last : Reading} {stretch more rest : List Char} {tokens others : List Token}

/-- One step reads as many characters as it is long. -/
theorem step {c : Char} {passed : List Char} {token : Option Token}
    (h : reading.step? c (passed ++ rest) = some ⟨token, next, passed.length + 1⟩) :
    Reads reading (c :: passed) rest token.toList next := by
  rw [Reads, List.cons_append, tokensFrom?, h]
  simp only [Option.bind_eq_bind, Option.bind_some, Nat.add_sub_cancel, tokensFrom?_skip]
  cases tokensFrom? 0 next rest <;> rfl

/-- Stretches are read one after the other. -/
theorem append (h : Reads reading stretch (more ++ rest) tokens next)
    (hmore : Reads next more rest others last) :
    Reads reading (stretch ++ more) rest (tokens ++ others) last := by
  rw [Reads] at h hmore ⊢
  rw [List.append_assoc, h, hmore, Option.map_map]
  congr 1
  funext ts
  exact (List.append_assoc tokens others ts).symm

theorem nil : Reads reading [] rest [] reading := by
  rw [Reads, List.nil_append]
  cases tokensFrom? 0 reading rest <;> rfl

end Reads

section Strings

variable {rest : List Char}

/-- The quoting of a string on one line. -/
abbrev onLine (literal : Bool) : Quoting := ⟨literal, false⟩

/-- Between the quotes a character stands for itself, unless it is the quote, a control character
or, in a basic string, the backslash. -/
theorem reads_plain {literal : Bool} {c : Char} (hquote : c ≠ (onLine literal).quote)
    (hbackslash : literal = false → c ≠ '\\') (hcontrol : isControl c = false)
    (text : List Char) :
    Reads (.quoted (onLine literal) text) [c] rest [] (.quoted (onLine literal) (c :: text)) := by
  have hplain : ¬(c = '\\' ∧ (!literal) = true) := fun h =>
    hbackslash ((Bool.not_eq_true' literal).mp h.2) h.1
  have hstep : (Reading.quoted (onLine literal) text).step? c ([] ++ rest) =
      some ⟨none, .quoted (onLine literal) (c :: text), 1⟩ := by
    simp only [Reading.step?, quotedStep?, if_neg hquote, if_neg hplain, hcontrol,
      Bool.false_eq_true, false_and, if_false]
  exact Reads.step hstep

/-- An escape is read as the character that it stands for. -/
theorem reads_escape {c : Char} {escape : List Char} (text : List Char)
    (h : escape? (escape ++ rest) = some (c, escape.length)) :
    Reads (.quoted (onLine false) text) ('\\' :: escape) rest []
      (.quoted (onLine false) (c :: text)) := by
  have hquote : '\\' ≠ (onLine false).quote := by decide
  have hstep : (Reading.quoted (onLine false) text).step? '\\' (escape ++ rest) =
      some ⟨none, .quoted (onLine false) (c :: text), escape.length + 1⟩ := by
    rw [Reading.step?, quotedStep?, if_neg hquote, if_pos ⟨rfl, rfl⟩, h]
  exact Reads.step hstep

/-- However a character is written, it is read as itself. -/
theorem reads_spelling {c : Char} {spelling : List Char} (h : Spells c spelling)
    (text : List Char) :
    Reads (.quoted (onLine false) text) spelling rest [] (.quoted (onLine false) (c :: text)) := by
  cases h with
  | plain hquote hbackslash hcontrol =>
    exact reads_plain hquote (fun _ => hbackslash) hcontrol text
  | short hshort => exact reads_escape text (escape?_of_mem_shortEscapes hshort rest)
  | @code letter digits hletter hcode =>
    refine reads_escape text ?_
    rw [List.cons_append, escape?_of_mem_codeEscapes hletter, codePoint?_append hcode,
      Option.map_some, List.length_cons, List.length_map]

/-- What stands between the quotes of a basic string is read as its text. -/
theorem reads_spelledText {text body : List Char} (h : SpellsText text body)
    (before : List Char) :
    Reads (.quoted (onLine false) before) body rest []
      (.quoted (onLine false) (text.reverse ++ before)) := by
  induction h generalizing before with
  | nil => exact Reads.nil
  | cons hc htext ih =>
    rw [List.reverse_cons, List.append_assoc]
    exact (reads_spelling hc before).append (ih _)

/-- What stands between the quotes of a literal string is read as it stands. -/
theorem reads_literalText {text : List Char} (h : ∀ c ∈ text, c ≠ '\'' ∧ isControl c = false)
    (before : List Char) :
    Reads (.quoted (onLine true) before) text rest []
      (.quoted (onLine true) (text.reverse ++ before)) := by
  induction text generalizing before with
  | nil => exact Reads.nil
  | cons c text ih =>
    obtain ⟨hquote, hcontrol⟩ := h c List.mem_cons_self
    have hstart : Reads (.quoted (onLine true) before) [c] (text ++ rest) []
        (.quoted (onLine true) (c :: before)) :=
      reads_plain hquote (fun h => Bool.noConfusion h) hcontrol before
    rw [List.reverse_cons, List.append_assoc]
    exact hstart.append (ih (fun d hd => h d (List.mem_cons_of_mem c hd)) _)

/-- A quote opens a string on one line, unless two more follow. -/
theorem reads_openingQuote (literal : Bool)
    (h : rest.take 2 ≠ [(onLine literal).quote, (onLine literal).quote]) :
    Reads .plain [(onLine literal).quote] rest [] (.quoted (onLine literal) []) := by
  have hstep : Reading.plain.step? (onLine literal).quote ([] ++ rest) =
      some ⟨none, .quoted (onLine literal) [], 1⟩ := by
    rw [List.nil_append, Reading.step?, plainStep?]
    cases literal with
    | true => simp [Quoting.quote, lineEndLength] at h ⊢; exact h
    | false => simp [Quoting.quote, lineEndLength] at h ⊢; exact h
  exact Reads.step hstep

/-- The quote closes a string on one line. -/
theorem reads_closingQuote (literal : Bool) (text : List Char) :
    Reads (.quoted (onLine literal) text) [(onLine literal).quote] rest
      [.quoted text.reverse false] .plain := by
  have hstep : (Reading.quoted (onLine literal) text).step? (onLine literal).quote ([] ++ rest) =
      some ⟨some (.quoted text.reverse false), .plain, 1⟩ := by
    rw [Reading.step?, quotedStep?, if_pos rfl]
    rfl
  exact Reads.step hstep

/-- No two quotes follow the one that opens a string. -/
theorem take_two_ne {quote : Char} {body : List Char} (hbody : body.head? ≠ some quote)
    (hrest : rest.head? ≠ some quote) : ((body ++ [quote]) ++ rest).take 2 ≠ [quote, quote] := by
  intro h
  cases body with
  | nil =>
    cases rest with
    | nil => cases h
    | cons c rest =>
      simp only [List.nil_append, List.singleton_append, List.take_succ_cons, List.take_zero,
        List.cons.injEq, and_true, true_and] at h
      exact hrest (congrArg some h)
  | cons c body =>
    simp only [List.cons_append, List.take_succ_cons, List.cons.injEq] at h
    exact hbody (congrArg some h.1)

/-- A string on one line is read from quote to quote. -/
theorem reads_quoted (literal : Bool) {text body : List Char}
    (hbody : body.head? ≠ some (onLine literal).quote)
    (hrest : rest.head? ≠ some (onLine literal).quote)
    (h : Reads (.quoted (onLine literal) []) body ((onLine literal).quote :: rest) []
      (.quoted (onLine literal) text.reverse)) :
    Reads .plain ((onLine literal).quote :: (body ++ [(onLine literal).quote])) rest
      [.quoted text false] .plain := by
  have hclose : Reads (.quoted (onLine literal) text.reverse) [(onLine literal).quote] rest
      [.quoted text.reverse.reverse false] .plain := reads_closingQuote literal text.reverse
  rw [List.reverse_reverse] at hclose
  exact (reads_openingQuote literal (take_two_ne hbody hrest)).append (h.append hclose)

/-- No spelling of a character begins with the quote. -/
theorem Spells.exists_cons {c : Char} {spelling : List Char} (h : Spells c spelling) :
    ∃ first more, spelling = first :: more ∧ first ≠ '"' := by
  cases h with
  | plain hquote hbackslash hcontrol => exact ⟨c, [], rfl, hquote⟩
  | short hshort => exact ⟨'\\', _, rfl, by decide⟩
  | code hletter hcode => exact ⟨'\\', _, rfl, by decide⟩

/-- However a string is written, it is read as its text. -/
theorem WritesString.reads {text written : List Char} (h : WritesString text written)
    (hrest : rest.head? ≠ some '"') : Reads .plain written rest [.quoted text false] .plain := by
  obtain ⟨body, hbody, rfl⟩ := h
  have hread : Reads (.quoted (onLine false) []) body ('"' :: rest) []
      (.quoted (onLine false) (text.reverse ++ [])) := reads_spelledText hbody []
  rw [List.append_nil] at hread
  refine reads_quoted false ?_ hrest hread
  cases hbody with
  | nil => simp
  | cons hc htext =>
    obtain ⟨first, more, rfl, hfirst⟩ := hc.exists_cons
    exact fun h => hfirst (Option.some.inj h)

end Strings

section Keys

variable {rest : List Char}

/-- A character that may stand in a bare word is none that may not. -/
theorem ne_of_isBare {c d : Char} (hc : isBare c = true) (hd : isBare d = false) : c ≠ d := by
  intro h
  rw [← h, hc] at hd
  cases hd

/-- A line ends only where its first character says so. -/
theorem lineEndLength_of_ne {c : Char} (hnewline : c ≠ '\n') (hreturn : c ≠ '\r') :
    lineEndLength (c :: rest) = 0 := by
  rw [lineEndLength]
  · intro tail h
    exact hnewline (List.cons.inj h).1
  · intro tail h
    exact hreturn (List.cons.inj h).1

/-- A bare word begins with its first character. -/
theorem plainStep?_of_isBare {c : Char} (hc : isBare c = true) :
    plainStep? c rest = some (bareStep [] c rest) := by
  have hne (d : Char) (hd : isBare d = false) : c ≠ d := ne_of_isBare hc hd
  have hline : lineEndLength (c :: rest) = 0 := lineEndLength_of_ne (hne _ rfl) (hne _ rfl)
  rw [plainStep?, if_neg (not_or.mpr ⟨hne _ rfl, hne _ rfl⟩), if_neg (hne _ rfl), hline,
    if_neg (Nat.lt_irrefl 0), if_neg (not_or.mpr ⟨hne _ rfl, hne _ rfl⟩), if_pos hc]
  rfl

/-- A bare word that has begun goes on to the last of its characters. -/
theorem reads_bareFrom {c : Char} {word : List Char} (h : ∀ d ∈ c :: word, isBare d = true)
    (hrest : (rest.head?.map isBare).getD false = false) (before : List Char) :
    Reads (.bare before) (c :: word) rest [.bare (before.reverse ++ c :: word)] .plain := by
  induction word generalizing c before with
  | nil =>
    have hstep : (Reading.bare before).step? c ([] ++ rest) =
        some ⟨some (.bare (before.reverse ++ [c])), .plain, 1⟩ := by
      simp only [Reading.step?, bareStep, List.nil_append, hrest, Bool.false_eq_true, if_false,
        List.reverse_cons]
    exact Reads.step hstep
  | cons d word ih =>
    have hd := h d (List.mem_cons_of_mem c List.mem_cons_self)
    have hstep : (Reading.bare before).step? c ([] ++ (d :: word ++ rest)) =
        some ⟨none, .bare (c :: before), 1⟩ := by
      simp only [Reading.step?, bareStep, List.nil_append, List.cons_append, List.head?_cons,
        Option.map_some, Option.getD_some, hd, if_true]
    have hmore := ih (fun e he => h e (List.mem_cons_of_mem c he)) (c :: before)
    rw [List.reverse_cons, List.append_assoc] at hmore
    exact (Reads.step hstep).append hmore

/-- A bare word is read up to its end. -/
theorem reads_bare {word : List Char} (hne : word ≠ []) (h : ∀ c ∈ word, isBare c = true)
    (hrest : (rest.head?.map isBare).getD false = false) :
    Reads .plain word rest [.bare word] .plain := by
  obtain ⟨c, word, rfl⟩ := List.exists_cons_of_ne_nil hne
  have hstep : Reading.plain.step? c (word ++ rest) = (Reading.bare []).step? c (word ++ rest) :=
    plainStep?_of_isBare (h c List.mem_cons_self)
  have hread := reads_bareFrom h hrest []
  rw [Reads, List.cons_append, tokensFrom?, ← hstep] at hread
  rw [Reads, List.cons_append, tokensFrom?]
  exact hread

/-- What may stand behind a name: a blank, the sign between key and value, the dot before a further
name, or the bracket behind the names of a table. -/
def separators : List Char := [' ', '\t', '=', '.', ']']

/-- However a key is written, one token with its name is read. -/
theorem WritesKey.exists_reads {name written : List Char} (h : WritesKey name written) :
    ∃ token, name? token = some name ∧ ∀ separator ∈ separators, ∀ rest,
      Reads .plain written (separator :: rest) [token] .plain := by
  have hseparator : ∀ separator ∈ separators,
      isBare separator = false ∧ separator ≠ '"' ∧ separator ≠ '\'' := by
    intro separator h
    simp only [separators, List.mem_cons, List.not_mem_nil, or_false] at h
    rcases h with rfl | rfl | rfl | rfl | rfl <;> decide
  cases h with
  | bare hne hbare =>
    exact ⟨.bare name, rfl, fun separator h rest => reads_bare hne hbare (hseparator separator h).1⟩
  | basic hstring =>
    refine ⟨.quoted name false, rfl, fun separator h rest => hstring.reads fun hquote => ?_⟩
    exact (hseparator separator h).2.1 (Option.some.inj hquote)
  | literal htext =>
    refine ⟨.quoted name false, rfl, fun separator h rest => ?_⟩
    have hread : Reads (.quoted (onLine true) []) name ('\'' :: separator :: rest) []
        (.quoted (onLine true) (name.reverse ++ [])) := reads_literalText htext []
    rw [List.append_nil] at hread
    refine reads_quoted true ?_ ?_ hread
    · intro hquote
      obtain ⟨tail, rfl⟩ := List.head?_eq_some_iff.mp hquote
      exact (htext _ List.mem_cons_self).1 rfl
    · intro hquote
      exact (hseparator separator h).2.2 (Option.some.inj hquote)

end Keys

end DebugSweep.Toml
