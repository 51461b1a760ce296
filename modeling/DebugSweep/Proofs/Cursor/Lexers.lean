import DebugSweep.Cursor
import DebugSweep.Proofs.Source.Closing

/-!
# The lexers by offsets follow the regions

A comment, literal or interpolation ends by offsets where the stack of its regions closes, or at the
end of the text if it never does. The lexers therefore come to a result at every offset of every
text, UTF-8 or not: they read inside the text only, no count falls below zero, and they come forward.

`closesAt?` is `closing?` from an offset on. It takes a step as the loops do, and the regions that a
step opens are closed before the others, as by a call of another lexer.
-/

namespace DebugSweep.Cursor

open Source

@[simp] theorem ok_bind {α β : Type} (a : α) (f : α → Except Misstep β) :
    ((Except.ok a : Except Misstep α) >>= f) = f a := rfl

@[simp] theorem pure_eq_ok {α : Type} (a : α) : (pure a : Except Misstep α) = .ok a := rfl

@[simp] theorem countDown_succ (n : Nat) : countDown (n + 1) = .ok n := rfl

theorem forward_of_lt {i next : Nat} (h : i < next) : forward i next = .ok ⟨next, h⟩ := dif_pos h

section Reading

variable {text rest : Bytes} {i : Nat} {b : UInt8}

/-- Where a byte follows there is an offset of the text. -/
theorem lt_of_drop (h : text.drop i = b :: rest) : i < text.length := by
  have hlength := congrArg List.length h
  simp only [List.length_drop, List.length_cons] at hlength
  omega

/-- The byte that follows is the one at the offset. -/
theorem byteAt_of_drop (h : text.drop i = b :: rest) : byteAt text i = .ok b := by
  have hbyte : text[i]? = some b := by
    rw [← List.head?_drop, h, List.head?_cons]
  rw [byteAt, hbyte, Option.elim_some]

/-- What follows one byte further. -/
theorem drop_succ_of_drop (h : text.drop i = b :: rest) : text.drop (i + 1) = rest := by
  rw [← List.drop_drop, h, List.drop_one, List.tail_cons]

/-- Looking one byte ahead. -/
theorem getElem?_succ_of_drop (h : text.drop i = b :: rest) : text[i + 1]? = rest.head? := by
  rw [← List.head?_drop, drop_succ_of_drop h]

/-- Three quotes stand where two more follow the first. -/
theorem isTriple_of_drop (h : text.drop i = b :: rest) :
    isTriple text i b = decide (rest.take 2 = [b, b]) := by
  rw [isTriple, h, List.take_succ_cons, Bool.eq_iff_iff, beq_iff_eq, decide_eq_true_eq,
    List.cons.injEq, and_iff_right rfl]

end Reading

/-- Whether an identifier byte stands directly before the offset. -/
def wordBefore (text : Bytes) (i : Nat) : Bool := wordAfter false (text.take i)

/-- Only what has been passed since an offset matters besides what stands before it. -/
theorem wordBefore_add (text : Bytes) (i n : Nat) :
    wordBefore text (i + n) = wordAfter (wordBefore text i) ((text.drop i).take n) :=
  wordAfter_take_add false text i n

/-- Looking one byte back. -/
theorem isAfterWord_eq {text : Bytes} {i : Nat} (h : i ≤ text.length) :
    isAfterWord text i = .ok (wordBefore text i) := by
  cases i with
  | zero => rfl
  | succ i =>
    have hdrop := List.drop_eq_getElem_cons (Nat.lt_of_succ_le h)
    rw [isAfterWord, if_neg (Nat.succ_ne_zero i), wordBefore_add, hdrop]
    simp only [countDown_succ, ok_bind, byteAt_of_drop hdrop, pure_eq_ok]
    rfl

/-- The offset at which the regions have closed that are open at an offset. -/
def closesAt? (regions : List Region) (text : Bytes) (i : Nat) : Option Nat :=
  (closing? regions (wordBefore text i) (text.drop i)).map (i + ·)

/-- The offset at which the regions have closed that are open at an offset, or the end of the
text. -/
def endOf (regions : List Region) (text : Bytes) (i : Nat) : Nat :=
  (closesAt? regions text i).getD text.length

section Closing

variable {text : Bytes} {i : Nat}

/-- Where nothing is open everything has closed. -/
@[simp] theorem closesAt?_nil : closesAt? [] text i = some i := by
  rw [closesAt?, closing?_no_regions, Option.map_some, Nat.add_zero]

/-- Nothing closes behind the text. -/
theorem closesAt?_of_le (region : Region) (outer : List Region) (h : text.length ≤ i) :
    closesAt? (region :: outer) text i = none := by
  rw [closesAt?, List.drop_eq_nil_of_le h, closing?_nil, Option.map_none]

/-- A step that a region takes at an offset leads to the offset behind it. -/
theorem closesAt?_cons {region : Region} {outer next : List Region} {b : UInt8} {rest : Bytes}
    {length : Nat} (h : text.drop i = b :: rest)
    (hstep : region.step outer (wordBefore text i) b rest = (next, length)) :
    closesAt? (region :: outer) text i = closesAt? next text (i + length) := by
  rw [closesAt?, h, closing?_cons hstep, ← h, ← wordBefore_add, List.drop_drop, map_add_map,
    closesAt?]

/-- The inner regions close first. -/
theorem closesAt?_append (inner outer : List Region) :
    closesAt? (inner ++ outer) text i =
      (closesAt? inner text i).bind (closesAt? outer text ·) := by
  rw [closesAt?, closing?_append, Option.map_bind, closesAt?, Option.bind_map]
  congr 1
  funext n
  rw [Function.comp_apply, Function.comp_apply, map_add_map, ← wordBefore_add, List.drop_drop,
    closesAt?]

/-- Regions close within the text, and not before the offset. -/
theorem closesAt?_bounds {regions : List Region} {n : Nat} (h : closesAt? regions text i = some n)
    (hi : i ≤ text.length) : i ≤ n ∧ n ≤ text.length := by
  rw [closesAt?, Option.map_eq_some_iff] at h
  obtain ⟨m, hm, rfl⟩ := h
  have := closing?_le hm
  rw [List.length_drop] at this
  omega

@[simp] theorem endOf_nil : endOf [] text i = i := by
  rw [endOf, closesAt?_nil, Option.getD_some]

/-- Behind the text whatever is open ends with it. -/
theorem endOf_of_le (region : Region) (outer : List Region) (h : text.length ≤ i) :
    endOf (region :: outer) text i = text.length := by
  rw [endOf, closesAt?_of_le region outer h, Option.getD_none]

/-- A step that a region takes at an offset leads to the offset behind it. -/
theorem endOf_cons {region : Region} {outer next : List Region} {b : UInt8} {rest : Bytes}
    {length : Nat} (h : text.drop i = b :: rest)
    (hstep : region.step outer (wordBefore text i) b rest = (next, length)) :
    endOf (region :: outer) text i = endOf next text (i + length) := by
  rw [endOf, closesAt?_cons h hstep, endOf]

/-- What is around a region goes on where the region ends. -/
theorem closesAt?_cons_cons (inner outer : Region) :
    closesAt? [inner, outer] text i = closesAt? [outer] text (endOf [inner] text i) := by
  have happend : closesAt? [inner, outer] text i =
      (closesAt? [inner] text i).bind (closesAt? [outer] text ·) := closesAt?_append [inner] [outer]
  rw [happend, endOf]
  cases closesAt? [inner] text i with
  | none => rw [Option.bind_none, Option.getD_none, closesAt?_of_le outer [] (Nat.le_refl _)]
  | some n => rw [Option.bind_some, Option.getD_some]

/-- An inner region ends before the one around it. -/
theorem endOf_cons_cons (inner outer : Region) :
    endOf [inner, outer] text i = endOf [outer] text (endOf [inner] text i) := by
  rw [endOf, closesAt?_cons_cons, ← endOf]

/-- What is open at an offset ends within the text, and not before the offset. -/
theorem endOf_bounds (regions : List Region) (hi : i ≤ text.length) :
    i ≤ endOf regions text i ∧ endOf regions text i ≤ text.length := by
  rw [endOf]
  cases h : closesAt? regions text i with
  | none => exact ⟨hi, Nat.le_refl _⟩
  | some n => exact closesAt?_bounds h hi

end Closing

section Lexers

variable {text rest : Bytes} {i : Nat} {b : UInt8}

/-- Inside the text some byte follows. -/
theorem exists_of_lt (h : i < text.length) : ∃ b rest, text.drop i = b :: rest :=
  ⟨_, _, List.drop_eq_getElem_cons h⟩

/-- The first byte at which to stop is the one that follows, or is found further on. -/
theorem firstFrom_of_drop (h : text.drop i = b :: rest) (stops : UInt8 → Bool) :
    firstFrom stops text i = if stops b then .ok i else firstFrom stops text (i + 1) := by
  have hi := lt_of_drop h
  simp only [firstFrom, if_pos (Nat.le_of_lt hi), if_pos (Nat.succ_le_of_lt hi), h,
    drop_succ_of_drop h, List.findIdx?_cons]
  cases stops b with
  | true => rfl
  | false =>
    cases rest.findIdx? stops with
    | none => rfl
    | some n => simp [Nat.add_assoc, Nat.add_comm 1]

/-- At the end of the text there is nowhere to stop before. -/
theorem firstFrom_length (stops : UInt8 → Bool) (text : Bytes) :
    firstFrom stops text text.length = .ok text.length := by
  rw [firstFrom, if_pos (Nat.le_refl _), List.drop_length]
  rfl

/-- A line comment ends with its line. -/
theorem lineEnd_eq (h : text.drop i = b :: rest) (hb : b ≠ Byte.newline) :
    lineEnd text i = .ok (endOf [.lineComment] text i) := by
  induction rest generalizing i b with
  | nil =>
    have hi : i + 1 = text.length := by
      have hlength := congrArg List.length h
      simp only [List.length_drop, List.length_singleton] at hlength
      omega
    have hstep : Region.lineComment.step [] (wordBefore text i) b [] = ([.lineComment], 1) := rfl
    rw [endOf_cons h hstep, lineEnd, firstFrom_of_drop h, if_neg (by simpa using hb), hi,
      firstFrom_length, endOf_of_le _ _ (Nat.le_refl _)]
  | cons c rest ih =>
    have hnext := drop_succ_of_drop h
    rw [lineEnd, firstFrom_of_drop h, if_neg (by simpa using hb)]
    by_cases hc : c = Byte.newline
    · have hstep : Region.lineComment.step [] (wordBefore text i) b (c :: rest) = ([], 1) := by
        simp only [Region.step, List.head?_cons, hc, if_true]
      rw [endOf_cons h hstep, endOf_nil, firstFrom_of_drop hnext, if_pos (by simpa using hc)]
    · have hstep : Region.lineComment.step [] (wordBefore text i) b (c :: rest) =
          ([.lineComment], 1) := by
        simp only [Region.step, List.head?_cons, Option.some.injEq, hc, if_false]
      rw [endOf_cons h hstep]
      exact ih hnext hc

/-- A block comment ends where the comments inside it and itself have closed. -/
theorem blockCommentEnd_eq (text : Bytes) (nested i : Nat) :
    blockCommentEnd text (nested + 1) i = .ok (endOf [.blockComment nested] text i) := by
  rw [blockCommentEnd]
  by_cases hi : i < text.length
  · obtain ⟨b, rest, h⟩ := exists_of_lt hi
    simp only [dif_pos hi, byteAt_of_drop h, getElem?_succ_of_drop h, ok_bind]
    by_cases hopen : b = Byte.slash ∧ rest.head? = some Byte.star
    · have hstep : (Region.blockComment nested).step [] (wordBefore text i) b rest =
          ([.blockComment (nested + 1)], 2) := by
        simp only [Region.step, if_pos hopen]
      rw [if_pos hopen, endOf_cons h hstep, blockCommentEnd_eq]
    · by_cases hclose : b = Byte.star ∧ rest.head? = some Byte.slash
      · rw [if_neg hopen, if_pos hclose, countDown_succ, ok_bind]
        cases nested with
        | zero =>
          have hstep : (Region.blockComment 0).step [] (wordBefore text i) b rest = ([], 2) := by
            simp only [Region.step, if_neg hopen, if_pos hclose]
          rw [if_pos rfl, endOf_cons h hstep, endOf_nil, pure_eq_ok]
        | succ nested =>
          have hstep : (Region.blockComment (nested + 1)).step [] (wordBefore text i) b rest =
              ([.blockComment nested], 2) := by
            simp only [Region.step, if_neg hopen, if_pos hclose]
          rw [if_neg (Nat.succ_ne_zero nested), endOf_cons h hstep, blockCommentEnd_eq]
      · have hstep : (Region.blockComment nested).step [] (wordBefore text i) b rest =
            ([.blockComment nested], 1) := by
          simp only [Region.step, if_neg hopen, if_neg hclose]
        rw [if_neg hopen, if_neg hclose, endOf_cons h hstep, blockCommentEnd_eq]
  · rw [dif_neg hi, endOf_of_le _ _ (by omega), pure_eq_ok]
termination_by text.length - i

/-- From an offset on, the literals end where their regions close. -/
def LiteralsFollow (text : Bytes) (i : Nat) : Prop :=
  ∀ quote triple raw,
    literalEndFrom quote triple raw text i = .ok (endOf [.literal quote triple raw] text i)

/-- From an offset on, the interpolations end where their regions close. -/
def InterpolationsFollow (text : Bytes) (i : Nat) : Prop :=
  ∀ nested, interpolationEnd (nested + 1) text i = .ok (endOf [.interpolation nested] text i)

/-- A literal ends where the region of its quotes closes. -/
theorem literalEnd_of_behind (h : text.drop i = b :: rest)
    (hbehind : ∀ j, i < j → LiteralsFollow text j) (raw : Bool) :
    literalEnd raw text i = .ok
      (endOf [(literalOpening raw b rest).1] text (i + (literalOpening raw b rest).2)) := by
  rw [literalEnd, byteAt_of_drop h, ok_bind, isTriple_of_drop h, literalOpening]
  by_cases htriple : rest.take 2 = [b, b]
  · simp only [htriple, decide_true, if_true]
    exact hbehind (i + 3) (by omega) b true raw
  · simp only [htriple, decide_false, if_false, Bool.false_eq_true]
    exact hbehind (i + 1) (by omega) b false raw

/-- A comment ends where the region that its slash opens closes. -/
theorem triviaEnd_slash (h : text.drop i = Byte.slash :: rest) :
    triviaEnd text i = .ok ((opening? (wordBefore text i) (Byte.slash :: rest)).map fun opened =>
      endOf [opened.1] text (i + opened.2)) := by
  rw [triviaEnd]
  simp only [byteAt_of_drop h, getElem?_succ_of_drop h, ok_bind, pure_eq_ok, opening?]
  by_cases hline : rest.head? = some Byte.slash
  · have hstep : Region.lineComment.step [] (wordBefore text i) Byte.slash rest =
        ([.lineComment], 1) := by
      simp only [Region.step, hline]
      rfl
    rw [lineEnd_eq h (by decide), endOf_cons h hstep]
    simp only [hline, and_self, if_true, ok_bind, Option.map_some]
  · by_cases hblock : rest.head? = some Byte.star
    · have hstar : Byte.star ≠ Byte.slash := by decide
      simp only [hblock, Option.some.injEq, hstar, and_false, and_self, if_true, if_false,
        blockCommentEnd_eq text 0, ok_bind, Option.map_some]
    · have hquote : Byte.isQuote Byte.slash = false := rfl
      have hletter : Byte.slash ≠ Byte.letterR := by decide
      simp only [hline, hblock, hquote, hletter, and_false, false_and, Bool.false_eq_true,
        if_true, if_false, Option.map_none]

/-- An `r` before a quote opens a raw literal if no identifier ends in it. -/
theorem triviaEnd_letterR {q : UInt8} (h : text.drop i = Byte.letterR :: q :: rest)
    (hquote : Byte.isQuote q = true) (hbehind : ∀ j, i < j → LiteralsFollow text j) :
    triviaEnd text i =
      .ok ((opening? (wordBefore text i) (Byte.letterR :: q :: rest)).map fun opened =>
        endOf [opened.1] text (i + opened.2)) := by
  have hslash : Byte.letterR ≠ Byte.slash := by decide
  have hletter : Byte.isQuote Byte.letterR = false := rfl
  have hword := isAfterWord_eq (Nat.le_of_lt (lt_of_drop h))
  rw [triviaEnd]
  simp only [byteAt_of_drop h, getElem?_succ_of_drop h, ok_bind, pure_eq_ok, opening?, hslash,
    hletter, hquote, hword, List.head?_cons, Option.any_some, and_self, false_and, decide_true,
    Bool.true_and, Bool.false_eq_true, if_true, if_false]
  cases wordBefore text i with
  | true => simp only [Bool.not_true, Bool.false_eq_true, if_true, if_false, Option.map_none]
  | false =>
    have hliteral := literalEnd_of_behind (drop_succ_of_drop h)
      (fun j hj => hbehind j (Nat.lt_of_succ_lt hj)) true
    simp only [hliteral, ok_bind, Bool.not_false, Bool.false_eq_true, if_true, if_false,
      Option.map_some, Nat.add_assoc, Nat.add_comm 1]

/-- A comment or literal ends where the region that it opens closes. -/
theorem triviaEnd_of_behind (h : text.drop i = b :: rest)
    (hbehind : ∀ j, i < j → LiteralsFollow text j) :
    triviaEnd text i = .ok ((opening? (wordBefore text i) (b :: rest)).map fun opened =>
      endOf [opened.1] text (i + opened.2)) := by
  by_cases hslash : b = Byte.slash
  · subst hslash
    exact triviaEnd_slash h
  by_cases hletter : b = Byte.letterR ∧ rest.head?.any Byte.isQuote = true
  · obtain ⟨rfl, hquote⟩ := hletter
    cases rest with
    | nil => cases hquote
    | cons q rest => exact triviaEnd_letterR h hquote hbehind
  rw [triviaEnd]
  simp only [byteAt_of_drop h, getElem?_succ_of_drop h, ok_bind, pure_eq_ok, opening?, hslash,
    hletter, false_and, if_false]
  by_cases hquote : Byte.isQuote b = true
  · simp only [hquote, if_true, literalEnd_of_behind h hbehind, ok_bind, Option.map_some]
  · have hraw : b = Byte.letterR → ∀ q tail, rest = q :: tail → Byte.isQuote q = false := by
      rintro rfl q tail rfl
      simpa using hletter
    cases rest with
    | nil => simp only [hquote, Bool.false_eq_true, if_false, ite_self, Option.map_none]
    | cons q tail =>
      by_cases hb : b = Byte.letterR
      · simp only [hquote, hraw hb q tail rfl, Bool.false_eq_true, if_false, ite_self,
          Option.map_none]
      · simp only [hquote, hb, decide_false, Bool.false_and, Bool.false_eq_true, if_false,
          Option.map_none]

/-- A literal goes on behind an escape, an interpolation or a byte, and ends with its quotes or,
unless these are triple, with its line. -/
theorem literalsFollow_of_drop (h : text.drop i = b :: rest)
    (hliterals : ∀ j, i < j → LiteralsFollow text j)
    (hinterpolations : ∀ j, i < j → InterpolationsFollow text j) : LiteralsFollow text i := by
  intro quote triple raw
  have hquotes : (b = quote ∧ isTriple text i quote = true) ↔
      (b = quote ∧ rest.take 2 = [quote, quote]) := by
    refine and_congr_right fun hb => ?_
    rw [← hb, isTriple_of_drop h, decide_eq_true_eq]
  rw [literalEndFrom]
  simp only [dif_pos (lt_of_drop h), byteAt_of_drop h, getElem?_succ_of_drop h, ok_bind, pure_eq_ok,
    hquotes]
  by_cases hescape : b = Byte.backslash ∧ raw = false
  · have hstep : (Region.literal quote triple raw).step [] (wordBefore text i) b rest =
        ([.literal quote triple raw], 2) := by
      simp only [Region.step, Bool.not_eq_true', if_pos hescape]
    rw [if_pos hescape, endOf_cons h hstep]
    exact hliterals (i + 2) (by omega) quote triple raw
  · by_cases hinterpolation : b = Byte.dollar ∧ raw = false ∧ rest.head? = some Byte.openBrace
    · have hstep : (Region.literal quote triple raw).step [] (wordBefore text i) b rest =
          ([.interpolation 0, .literal quote triple raw], 2) := by
        simp only [Region.step, Bool.not_eq_true', if_neg hescape, if_pos hinterpolation]
      have hnext : i + 2 ≤ text.length := by
        obtain ⟨tail, rfl⟩ := List.head?_eq_some_iff.mp hinterpolation.2.2
        exact lt_of_drop (drop_succ_of_drop h)
      have hforward : i < endOf [.interpolation 0] text (i + 2) := by
        have := (endOf_bounds [.interpolation 0] hnext).1
        omega
      rw [if_neg hescape, if_pos hinterpolation, hinterpolations (i + 2) (by omega) 0, ok_bind,
        forward_of_lt hforward, ok_bind, endOf_cons h hstep, endOf_cons_cons]
      exact hliterals _ hforward quote triple raw
    · have hstep : (Region.literal quote triple raw).step [] (wordBefore text i) b rest =
          if b = quote ∧ triple = false then ([], 1)
          else if b = quote ∧ rest.take 2 = [quote, quote] then ([], 3)
          else if b = Byte.newline ∧ triple = false then ([], 1)
          else ([.literal quote triple raw], 1) := by
        simp only [Region.step, Bool.not_eq_true', if_neg hescape, if_neg hinterpolation]
      rw [if_neg hescape, if_neg hinterpolation]
      split_ifs at hstep ⊢
      · rw [endOf_cons h hstep, endOf_nil]
      · rw [endOf_cons h hstep, endOf_nil]
      · rw [endOf_cons h hstep, endOf_nil]
      · rw [endOf_cons h hstep]
        exact hliterals (i + 1) (by omega) quote triple raw

/-- Where code is read, a comment or literal is passed over, which is a way forward. -/
theorem closesAt?_opening (region : Region) {inner : Region} {length : Nat}
    (hcode : region.readsCode = true)
    (h : text.drop i = b :: rest)
    (hopen : opening? (wordBefore text i) (b :: rest) = some (inner, length)) :
    i < endOf [inner] text (i + length) ∧
      closesAt? [region] text i = closesAt? [region] text (endOf [inner] text (i + length)) := by
  have hstep : region.step [] (wordBefore text i) b rest = ([inner, region], length) := by
    cases region with
    | arguments nested => simp only [Region.step, hopen]
    | interpolation nested => simp only [Region.step, hopen]
    | literal quote triple raw => cases hcode
    | lineComment => cases hcode
    | blockComment nested => cases hcode
  have hpos := opening?_length_pos hopen
  have hlength := (opening?_spec hopen).2
  rw [← h, List.length_drop] at hlength
  have hend : i + length ≤ text.length := by omega
  have hbounds := endOf_bounds [inner] hend
  exact ⟨by omega, by rw [closesAt?_cons h hstep, closesAt?_cons_cons]⟩

/-- An interpolation goes on behind a comment or literal or a byte, and ends with its brace. -/
theorem interpolationsFollow_of_drop (h : text.drop i = b :: rest)
    (hliterals : ∀ j, i < j → LiteralsFollow text j)
    (hinterpolations : ∀ j, i < j → InterpolationsFollow text j) : InterpolationsFollow text i := by
  intro nested
  rw [interpolationEnd, dif_pos (lt_of_drop h), triviaEnd_of_behind h hliterals, ok_bind]
  cases hopen : opening? (wordBefore text i) (b :: rest) with
  | some opened =>
    obtain ⟨inner, length⟩ := opened
    obtain ⟨hforward, hcloses⟩ := closesAt?_opening (.interpolation nested) rfl h hopen
    have hend : endOf [.interpolation nested] text i =
        endOf [.interpolation nested] text (endOf [inner] text (i + length)) :=
      congrArg (Option.getD · text.length) hcloses
    simp only [Option.map_some, forward_of_lt hforward, ok_bind, hend]
    exact hinterpolations _ hforward nested
  | none =>
    have hstep : (Region.interpolation nested).step [] (wordBefore text i) b rest =
        (countNested .interpolation Byte.openBrace Byte.closeBrace nested [] b, 1) := by
      simp only [Region.step, hopen]
    have hnext := hinterpolations (i + 1) (by omega)
    simp only [Option.map_none, byteAt_of_drop h, ok_bind, pure_eq_ok, countDown_succ]
    rw [endOf_cons h hstep]
    unfold countNested
    by_cases hopener : b = Byte.openBrace
    · rw [if_pos hopener, if_pos hopener]
      exact hnext (nested + 1)
    · rw [if_neg hopener, if_neg hopener]
      by_cases hcloser : b = Byte.closeBrace
      · rw [if_pos hcloser, if_pos hcloser]
        cases nested with
        | zero => rw [if_pos rfl, endOf_nil]
        | succ nested =>
          rw [if_neg (Nat.succ_ne_zero nested)]
          exact hnext nested
      · rw [if_neg hcloser, if_neg hcloser]
        exact hnext nested

/-- Literals and interpolations end where their regions close, from every offset on. -/
theorem lexers_follow (text : Bytes) (i : Nat) :
    LiteralsFollow text i ∧ InterpolationsFollow text i := by
  by_cases hi : i < text.length
  · obtain ⟨b, rest, h⟩ := exists_of_lt hi
    have hliterals (j : Nat) (_ : i < j) : LiteralsFollow text j := (lexers_follow text j).1
    have hinterpolations (j : Nat) (_ : i < j) : InterpolationsFollow text j :=
      (lexers_follow text j).2
    exact ⟨literalsFollow_of_drop h hliterals hinterpolations,
      interpolationsFollow_of_drop h hliterals hinterpolations⟩
  · have hend : text.length ≤ i := Nat.le_of_not_lt hi
    constructor
    · intro quote triple raw
      rw [literalEndFrom, dif_neg hi, endOf_of_le _ _ hend, pure_eq_ok]
    · intro nested
      rw [interpolationEnd, dif_neg hi, endOf_of_le _ _ hend, pure_eq_ok]
termination_by text.length - i

/-- A region that a comment or literal opens ends as far behind the offset as the comment or literal
is long. -/
theorem endOf_opening {region : Region} {length : Nat}
    (hopen : opening? (wordBefore text i) (text.drop i) = some (region, length)) :
    triviaLength? (wordBefore text i) (text.drop i) =
      some (endOf [region] text (i + length) - i) := by
  obtain ⟨hcode, hlength⟩ := opening?_spec hopen
  rw [triviaLength?_eq, hopen, Option.map_some, endOf, closesAt?, ← List.drop_drop,
    closing?_inWord hcode [] false (wordBefore text (i + length)), Option.some.injEq]
  rw [List.length_drop] at hlength ⊢
  cases closing? [region] (wordBefore text (i + length)) ((text.drop i).drop length) with
  | none => rfl
  | some n =>
    simp only [Option.elim_some, Option.map_some, Option.getD_some]
    omega

/-- Inside the text the lexers find whether a comment or literal begins, and where it ends. -/
theorem triviaEnd_eq (hi : i < text.length) :
    triviaEnd text i =
      .ok ((triviaLength? (wordBefore text i) (text.drop i)).map (i + ·)) := by
  obtain ⟨b, rest, h⟩ := exists_of_lt hi
  rw [triviaEnd_of_behind h fun j _ => (lexers_follow text j).1, ← h]
  cases hopen : opening? (wordBefore text i) (text.drop i) with
  | none => rw [triviaLength?_eq, hopen, Option.map_none, Option.map_none, Option.map_none]
  | some opened =>
    obtain ⟨region, length⟩ := opened
    have hlength := (opening?_spec hopen).2
    rw [List.length_drop] at hlength
    have hend : i + length ≤ text.length := by omega
    have hbounds := endOf_bounds [region] hend
    rw [endOf_opening hopen, Option.map_some, Option.map_some]
    congr 2
    simp only
    omega

end Lexers

end DebugSweep.Cursor
