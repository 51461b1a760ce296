import DebugSweep.Cursor.Unguarded
import DebugSweep.Proofs.Cursor.Statements

/-!
# The scan by offsets comes to an end

A comment or literal ends behind its opening and within the text, whatever the bytes are: also where
an escape leaps over the end of the text, and where nothing ever closes what was opened. So each
lexer leaves the loop that called it further on than it found it, and the scan without its guards
ends on every text: no call of it is deeper than three times the length of the text, and its outcome
is the one that it has under the guards, which therefore never stop it.
-/

namespace DebugSweep.Cursor

open Source

namespace Running

variable {α β : Type}

/-- What may go wrong ends at once, and so does what follows it. -/
theorem ended_bind (x : Except Misstep α) (f : α → Except Misstep β) :
    ended (x >>= f) = ended x >>= fun a => ended (f a) := by
  cases x <;> rfl

@[simp] theorem ended_ok_bind (a : α) (f : α → Running β) : ended (.ok a) >>= f = f a := rfl

end Running

/-- Where the scan comes forward the guard lets it pass. -/
theorem forward_bind {α : Type} {i next : Nat} (h : i < next)
    (f : {j : Nat // i < j} → Except Misstep α) : forward i next >>= f = f ⟨next, h⟩ := by
  rw [forward_of_lt h, ok_bind]

section Bounds

variable {text : Bytes} {i : Nat}

/-- A comment or literal ends behind the offset at which it begins, within the text. -/
theorem triviaEnd_bounds {next : Nat} (hi : i < text.length)
    (h : triviaEnd text i = .ok (some next)) : i < next ∧ next ≤ text.length := by
  rw [triviaEnd_eq hi, Except.ok.injEq, Option.map_eq_some_iff] at h
  obtain ⟨length, hlength, rfl⟩ := h
  have hpos := triviaLength?_pos hlength
  have hle := triviaLength?_le hlength
  rw [List.length_drop] at hle
  omega

/-- The offset of two bytes lies two bytes before the end of the text at least. -/
theorem add_two_le_of_prefix_drop {b c : UInt8} (h : [b, c] <+: text.drop i) :
    i + 2 ≤ text.length := by
  have hlength := h.length_le
  rw [List.length_drop, List.length_cons, List.length_singleton] at hlength
  omega

/-- What follows a byte of the text. -/
theorem exists_drop_of_getElem? {b : UInt8} (h : text[i]? = some b) :
    ∃ rest, text.drop i = b :: rest := by
  rw [← List.head?_drop, List.head?_eq_some_iff] at h
  exact h

/-- A literal ends within the text, not before its opening does. -/
theorem literalEnd_bounds (raw : Bool) {quote : UInt8} (h : text[i]? = some quote) :
    ∃ next, literalEnd raw text i = .ok next ∧
      i + (if isTriple text i quote then 3 else 1) ≤ next ∧ next ≤ text.length := by
  obtain ⟨rest, hrest⟩ := exists_drop_of_getElem? h
  have hend := literalEnd_of_behind hrest (fun j _ => (lexers_follow text j).1) raw
  have hlength : (literalOpening raw quote rest).2 = if isTriple text i quote then 3 else 1 := by
    rw [isTriple_of_drop hrest, literalOpening]
    split_ifs <;> simp_all
  have hle := (literalOpening_spec (Prod.eta (literalOpening raw quote rest)).symm).2
  have hopening : i + (literalOpening raw quote rest).2 ≤ text.length := by
    have hdrop := congrArg List.length hrest
    rw [List.length_drop, List.length_cons] at hdrop
    omega
  rw [← hlength]
  exact ⟨_, hend, endOf_bounds _ hopening⟩

/-- A call is followed from its parenthesis on; a statement ends behind that, within the text. -/
theorem exists_callEnd (h : text[i]? = some Byte.openParen) :
    ∃ outcome, callEnd text i = .ok outcome ∧
      ∀ stop, outcome = .statement stop → i < stop ∧ stop ≤ text.length := by
  obtain ⟨rest, hrest⟩ := exists_drop_of_getElem? h
  rw [callEnd, closingParen?_openParen hrest, ok_bind]
  cases closing? [.arguments 0] false rest with
  | none => exact ⟨.unclosed, rfl, fun stop hstop => CallEnd.noConfusion hstop⟩
  | some n =>
    simp only [Option.map_some, blanksEnd_eq, ok_bind, pure_eq_ok]
    split_ifs with hterminator
    · have hlast := (List.getElem?_eq_some_iff.mp hterminator).1
      refine ⟨_, rfl, fun stop hstop => ?_⟩
      cases hstop
      omega
    · exact ⟨.expression, rfl, fun stop hstop => CallEnd.noConfusion hstop⟩

end Bounds

namespace Unguarded

open Running

section Comments

variable {text : Bytes}

/-- A block comment ends alike with and without the guards. -/
theorem blockCommentEnd_eq_ended {depth : Nat} (nested : Nat) {i : Nat}
    (h : text.length - i < depth) :
    blockCommentEnd depth text nested i = ended (Cursor.blockCommentEnd text nested i) := by
  induction depth generalizing nested i with
  | zero => exact absurd h (Nat.not_lt_zero _)
  | succ depth ih =>
    rw [blockCommentEnd, Cursor.blockCommentEnd]
    by_cases hi : i < text.length
    · rw [if_pos hi, dif_pos hi, ended_bind]
      refine bind_congr fun b => ?_
      split_ifs
      · exact ih (nested + 1) (by omega)
      · rw [ended_bind]
        refine bind_congr fun nested => ?_
        split_ifs
        · rfl
        · exact ih nested (by omega)
      · exact ih nested (by omega)
    · rw [if_neg hi, dif_neg hi]
      rfl

end Comments

/-- From an offset on, literals end alike with and without the guards. -/
def LiteralsEnd (text : Bytes) (i : Nat) : Prop :=
  ∀ depth, 3 * (text.length - i) < depth → ∀ quote triple raw,
    literalEndFrom depth quote triple raw text i =
      ended (Cursor.literalEndFrom quote triple raw text i)

/-- From an offset on, interpolations end alike with and without the guards. -/
def InterpolationsEnd (text : Bytes) (i : Nat) : Prop :=
  ∀ depth, 3 * (text.length - i) < depth → ∀ nested,
    interpolationEnd depth nested text i = ended (Cursor.interpolationEnd nested text i)

section Lexers

variable {text : Bytes} {i depth : Nat}

/-- A literal ends alike if literals do from behind its opening on. -/
theorem literalEnd_of_behind (hbehind : ∀ j, i < j → LiteralsEnd text j) (raw : Bool)
    (h : 3 * (text.length - (i + 1)) + 1 < depth) :
    literalEnd depth raw text i = ended (Cursor.literalEnd raw text i) := by
  obtain ⟨depth, rfl⟩ := Nat.exists_eq_add_one_of_ne_zero (Nat.ne_zero_of_lt h)
  rw [literalEnd, Cursor.literalEnd, ended_bind]
  refine bind_congr fun quote => hbehind _ ?_ depth ?_ _ _ _
  · split_ifs <;> omega
  · split_ifs <;> omega

/-- A comment or literal ends alike if literals do further on. -/
theorem triviaEnd_of_behind (hbehind : ∀ j, i < j → LiteralsEnd text j)
    (h : 3 * (text.length - (i + 1)) + 2 < depth) :
    triviaEnd depth text i = ended (Cursor.triviaEnd text i) := by
  obtain ⟨depth, rfl⟩ := Nat.exists_eq_add_one_of_ne_zero (Nat.ne_zero_of_lt h)
  have hraw : literalEnd depth true text (i + 1) = ended (Cursor.literalEnd true text (i + 1)) :=
    literalEnd_of_behind (fun j hj => hbehind j (Nat.lt_of_succ_lt hj)) true (by omega)
  rw [triviaEnd, Cursor.triviaEnd, ended_bind]
  refine bind_congr fun b => ?_
  split_ifs
  · rw [ended_bind]
    rfl
  · rw [blockCommentEnd_eq_ended 1 (by omega), ended_bind]
    rfl
  · rw [literalEnd_of_behind hbehind false (by omega), ended_bind]
    rfl
  · rw [ended_bind]
    refine bind_congr fun inWord => ?_
    split_ifs
    · rfl
    · rw [hraw, ended_bind]
      rfl
  · rfl

/-- A literal goes on alike if literals and interpolations do further on: an interpolation leaves it
behind the place where the interpolation was opened. -/
theorem literalsEnd_of_behind (hliterals : ∀ j, i < j → LiteralsEnd text j)
    (hinterpolations : ∀ j, i < j → InterpolationsEnd text j) : LiteralsEnd text i := by
  intro depth h quote triple raw
  obtain ⟨depth, rfl⟩ := Nat.exists_eq_add_one_of_ne_zero (Nat.ne_zero_of_lt h)
  rw [literalEndFrom, Cursor.literalEndFrom]
  by_cases hi : i < text.length
  · rw [if_pos hi, dif_pos hi, ended_bind]
    refine bind_congr fun b => ?_
    split_ifs with hescape hinterpolation
    · exact hliterals (i + 2) (by omega) depth (by omega) quote triple raw
    · have hopen : i + 2 ≤ text.length :=
        Nat.succ_le_of_lt (List.getElem?_eq_some_iff.mp hinterpolation.2.2).1
      have hbounds := endOf_bounds [.interpolation 0] hopen
      have hforward : i < endOf [.interpolation 0] text (i + 2) := by omega
      rw [hinterpolations (i + 2) (by omega) depth (by omega) 1,
        (lexers_follow text (i + 2)).2 0, ok_bind, forward_bind hforward, ended_ok_bind]
      exact hliterals _ hforward depth (by omega) quote triple raw
    · rfl
    · rfl
    · rfl
    · exact hliterals (i + 1) (by omega) depth (by omega) quote triple raw
  · rw [if_neg hi, dif_neg hi]
    rfl

/-- A loop over code goes on alike: a comment or literal leaves it further on, and where none begins
it looks at the byte. -/
theorem triviaEnd_bind_eq_ended {α : Type} (hi : i < text.length)
    (htrivia : triviaEnd depth text i = ended (Cursor.triviaEnd text i))
    {behind : Nat → Running α} {here : Running α}
    {guarded : {j : Nat // i < j} → Except Misstep α} {guardedHere : Except Misstep α}
    (hbehind : ∀ next (h : i < next), behind next = ended (guarded ⟨next, h⟩))
    (hhere : here = ended guardedHere) :
    (triviaEnd depth text i >>= fun | some next => behind next | none => here) =
      ended (Cursor.triviaEnd text i >>= fun
        | some next => forward i next >>= guarded
        | none => guardedHere) := by
  rw [htrivia]
  have hbounds (next : Nat) (h : Cursor.triviaEnd text i = .ok (some next)) : i < next :=
    (triviaEnd_bounds hi h).1
  rw [triviaEnd_eq hi] at hbounds ⊢
  cases hfound : (triviaLength? (wordBefore text i) (text.drop i)).map (i + ·) with
  | some next =>
    have hforward := hbounds next (congrArg _ hfound)
    rw [ended_ok_bind, ok_bind]
    simp only
    rw [forward_bind hforward, hbehind next hforward]
  | none => exact hhere

/-- An interpolation goes on alike if literals and interpolations do further on. -/
theorem interpolationsEnd_of_behind (hliterals : ∀ j, i < j → LiteralsEnd text j)
    (hinterpolations : ∀ j, i < j → InterpolationsEnd text j) : InterpolationsEnd text i := by
  intro depth h nested
  obtain ⟨depth, rfl⟩ := Nat.exists_eq_add_one_of_ne_zero (Nat.ne_zero_of_lt h)
  rw [interpolationEnd, Cursor.interpolationEnd]
  by_cases hi : i < text.length
  · rw [if_pos hi, dif_pos hi]
    refine triviaEnd_bind_eq_ended hi (triviaEnd_of_behind hliterals (by omega))
      (fun next hnext => hinterpolations next hnext depth (by omega) nested) ?_
    rw [ended_bind]
    refine bind_congr fun b => ?_
    split_ifs
    · exact hinterpolations (i + 1) (by omega) depth (by omega) (nested + 1)
    · rw [ended_bind]
      refine bind_congr fun nested => ?_
      split_ifs
      · rfl
      · exact hinterpolations (i + 1) (by omega) depth (by omega) nested
    · exact hinterpolations (i + 1) (by omega) depth (by omega) nested
  · rw [if_neg hi, dif_neg hi]
    rfl

/-- Literals and interpolations end alike from every offset on. -/
theorem lexers_end (text : Bytes) (i : Nat) : LiteralsEnd text i ∧ InterpolationsEnd text i := by
  by_cases hi : i < text.length
  · have hliterals (j : Nat) (_ : i < j) : LiteralsEnd text j := (lexers_end text j).1
    have hinterpolations (j : Nat) (_ : i < j) : InterpolationsEnd text j := (lexers_end text j).2
    exact ⟨literalsEnd_of_behind hliterals hinterpolations,
      interpolationsEnd_of_behind hliterals hinterpolations⟩
  · constructor
    · intro depth h quote triple raw
      obtain ⟨depth, rfl⟩ := Nat.exists_eq_add_one_of_ne_zero (Nat.ne_zero_of_lt h)
      rw [literalEndFrom, Cursor.literalEndFrom, if_neg hi, dif_neg hi]
      rfl
    · intro depth h nested
      obtain ⟨depth, rfl⟩ := Nat.exists_eq_add_one_of_ne_zero (Nat.ne_zero_of_lt h)
      rw [interpolationEnd, Cursor.interpolationEnd, if_neg hi, dif_neg hi]
      rfl
termination_by text.length - i

theorem literalEnd_eq_ended (raw : Bool) (h : 3 * (text.length - (i + 1)) + 1 < depth) :
    literalEnd depth raw text i = ended (Cursor.literalEnd raw text i) :=
  literalEnd_of_behind (fun j _ => (lexers_end text j).1) raw h

theorem triviaEnd_eq_ended (h : 3 * (text.length - (i + 1)) + 2 < depth) :
    triviaEnd depth text i = ended (Cursor.triviaEnd text i) :=
  triviaEnd_of_behind (fun j _ => (lexers_end text j).1) h

end Lexers

section Statements

variable {text : Bytes} {i depth : Nat}

/-- An argument list closes alike with and without the guards. -/
theorem closingParen?_eq_ended (nested : Nat) (h : 3 * (text.length - i) < depth) :
    closingParen? depth nested text i = ended (Cursor.closingParen? nested text i) := by
  induction depth generalizing nested i with
  | zero => exact absurd h (Nat.not_lt_zero _)
  | succ depth ih =>
    rw [closingParen?, Cursor.closingParen?]
    by_cases hi : i < text.length
    · rw [if_pos hi, dif_pos hi]
      refine triviaEnd_bind_eq_ended hi (triviaEnd_eq_ended (by omega))
        (fun next hnext => ih nested (by omega)) ?_
      rw [ended_bind]
      refine bind_congr fun b => ?_
      split_ifs
      · exact ih (nested + 1) (by omega)
      · rw [ended_bind]
        refine bind_congr fun nested => ?_
        split_ifs
        · rfl
        · exact ih nested (by omega)
      · exact ih nested (by omega)
    · rw [if_neg hi, dif_neg hi]
      rfl

/-- Blanks end alike with and without the guards. -/
theorem blanksEnd_eq_ended (h : text.length - i < depth) :
    blanksEnd depth text i = ended (Cursor.blanksEnd text i) := by
  induction depth generalizing i with
  | zero => exact absurd h (Nat.not_lt_zero _)
  | succ depth ih =>
    rw [blanksEnd, Cursor.blanksEnd]
    by_cases hi : i < text.length
    · rw [if_pos hi, dif_pos hi, ended_bind]
      refine bind_congr fun b => ?_
      split_ifs
      · exact ih (by omega)
      · rfl
    · rw [if_neg hi, dif_neg hi]
      rfl

/-- A call ends alike with and without the guards: its argument list closes behind the parenthesis,
and what comes after it lies further on still. -/
theorem callEnd_eq_ended (hopen : text[i]? = some Byte.openParen)
    (h : 3 * (text.length - i) < depth) :
    callEnd depth text i = ended (Cursor.callEnd text i) := by
  obtain ⟨rest, hrest⟩ := exists_drop_of_getElem? hopen
  rw [callEnd, Cursor.callEnd, closingParen?_eq_ended 0 h, closingParen?_openParen hrest,
    ended_ok_bind, ok_bind]
  cases closing? [.arguments 0] false rest with
  | none => rfl
  | some n =>
    simp only [Option.map_some]
    rw [blanksEnd_eq_ended (by omega), ended_bind]
    refine bind_congr fun next => ?_
    split_ifs <;> rfl

/-- Statements are found alike with and without the guards: the search leaves an identifier and a
statement behind where they begin. -/
theorem statementsFrom_eq_ended (atStart : Bool) (h : 3 * (text.length - i) < depth) :
    statementsFrom depth atStart text i = ended (Cursor.statementsFrom atStart text i) := by
  induction depth generalizing atStart i with
  | zero => exact absurd h (Nat.not_lt_zero _)
  | succ depth ih =>
    rw [statementsFrom, Cursor.statementsFrom]
    by_cases hi : i < text.length
    · obtain ⟨b, rest, hdrop⟩ := exists_of_lt hi
      rw [if_pos hi, dif_pos hi, byteAt_of_drop hdrop, ended_ok_bind, ok_bind]
      refine triviaEnd_bind_eq_ended hi (triviaEnd_eq_ended (by omega))
        (fun next hnext => ih (atStart && b == Byte.slash) (by omega)) ?_
      by_cases hstart : Byte.isWordStart b = true
      · have hforward : i < i + ((text.drop i).takeWhile Byte.isWord).length := by
          rw [hdrop, List.takeWhile_cons_of_pos (Byte.isWord_of_isWordStart hstart),
            List.length_cons]
          omega
        rw [if_pos hstart, if_pos hstart, wordEnd_eq (Nat.le_of_lt hi), ended_ok_bind, ok_bind,
          forward_bind hforward, ended_bind]
        generalize i + ((text.drop i).takeWhile Byte.isWord).length = stop at hforward
        refine bind_congr fun name => ?_
        simp only [List.contains_iff_mem]
        split_ifs with hcall
        · obtain ⟨outcome, hend, hbounds⟩ := exists_callEnd hcall.2.2
          rw [callEnd_eq_ended hcall.2.2 (by omega), hend, ended_ok_bind, ok_bind]
          cases outcome with
          | statement next =>
            have hnext := hforward.trans (hbounds next rfl).1
            simp only
            rw [forward_bind hnext, ih atStart (by omega), ended_bind]
            rfl
          | expression => exact ih false (by omega)
          | unclosed => rfl
        · exact ih false (by omega)
      · rw [if_neg hstart, if_neg hstart]
        exact ih _ (by omega)
    · rw [if_neg hi, dif_neg hi]
      rfl

/-- The search comes to an end on every text, and finds what it finds under the guards. -/
theorem findStatements_eq_ended (h : 3 * text.length < depth) :
    findStatements depth text = ended (Cursor.findStatements text) :=
  statementsFrom_eq_ended true h

end Statements

/-- The lexer ends within the text, and not before an offset. -/
def EndsFrom (text : Bytes) (i : Nat) (lexer : Running Nat) : Prop :=
  ∃ next, lexer = ended (.ok next) ∧ i ≤ next ∧ next ≤ text.length

/-- Whatever the bytes are, a comment or literal ends behind the offset at which it begins, and a
literal, an interpolation and a block comment end behind their opening, all of them within the text.
So calls are followed to their end, and the search for statements ends; on UTF-8 it finds them. It is
enough to go three calls deep for each byte of the text, and one more. -/
theorem lexers_advance (text : Bytes) {depth : Nat} (h : 3 * text.length < depth) :
    (∀ i < text.length, ∃ found, triviaEnd depth text i = ended (.ok found) ∧
      ∀ next, found = some next → i < next ∧ next ≤ text.length) ∧
    (∀ raw i quote, text[i]? = some quote →
      EndsFrom text (i + if isTriple text i quote then 3 else 1) (literalEnd depth raw text i)) ∧
    (∀ i, [Byte.dollar, Byte.openBrace] <+: text.drop i →
      EndsFrom text (i + 2) (interpolationEnd depth 1 text (i + 2))) ∧
    (∀ i, [Byte.slash, Byte.star] <+: text.drop i →
      EndsFrom text (i + 2) (blockCommentEnd depth text 1 (i + 2))) ∧
    (∀ i, text[i]? = some Byte.openParen → ∃ outcome,
      callEnd depth text i = ended (.ok outcome) ∧
      ∀ stop, outcome = .statement stop → i < stop ∧ stop ≤ text.length) ∧
    (∃ outcome, findStatements depth text = ended outcome) ∧
    (Utf8.isValid text = true →
      findStatements depth text = ended (.ok (Source.findStatements text))) := by
  refine ⟨?_, ?_, ?_, ?_, ?_, ?_, ?_⟩
  · intro i hi
    have hend : triviaEnd depth text i = _ := triviaEnd_eq_ended (by omega)
    refine ⟨_, hend.trans (congrArg ended (triviaEnd_eq hi)), ?_⟩
    intro next hnext
    exact triviaEnd_bounds hi ((triviaEnd_eq hi).trans (congrArg Except.ok hnext))
  · intro raw i quote hquote
    have hi := (List.getElem?_eq_some_iff.mp hquote).1
    obtain ⟨next, hend, hbounds⟩ := literalEnd_bounds raw hquote
    exact ⟨next, (literalEnd_eq_ended raw (by omega)).trans (congrArg ended hend), hbounds⟩
  · intro i hopen
    have hend := (lexers_follow text (i + 2)).2 0
    exact ⟨_, ((lexers_end text (i + 2)).2 depth (by omega) 1).trans (congrArg ended hend),
      endOf_bounds _ (add_two_le_of_prefix_drop hopen)⟩
  · intro i hopen
    have hend := blockCommentEnd_eq text 0 (i + 2)
    exact ⟨_, (blockCommentEnd_eq_ended 1 (by omega)).trans (congrArg ended hend),
      endOf_bounds _ (add_two_le_of_prefix_drop hopen)⟩
  · intro i hopen
    obtain ⟨outcome, hend, hbounds⟩ := exists_callEnd hopen
    exact ⟨outcome, (callEnd_eq_ended hopen (by omega)).trans (congrArg ended hend), hbounds⟩
  · exact ⟨_, findStatements_eq_ended h⟩
  · intro hvalid
    exact (findStatements_eq_ended h).trans (congrArg ended (findStatements_eq hvalid))

/-- In bytes that are no UTF-8, a literal inside an interpolation inside a literal: none of them is
closed, and the last byte is an escape that leaps over the end. -/
theorem lexers_advance_overshooting :
    let text := ascii "print('$\x7b\"" ++ [0xFF, Byte.backslash]
    Utf8.isValid text = false ∧
      (∃ outcome, callEnd 100 text 5 = ended (.ok outcome)) ∧
      EndsFrom text 7 (literalEnd 100 false text 6) ∧
      EndsFrom text 9 (interpolationEnd 100 1 text 9) ∧
      EndsFrom text 10 (literalEnd 100 false text 9) := by
  intro text
  have hdepth : 3 * text.length < 100 := by decide
  obtain ⟨-, hliteral, hinterpolation, -, hcall, -⟩ := lexers_advance text hdepth
  obtain ⟨outcome, houtcome, -⟩ := hcall 5 rfl
  exact ⟨rfl, ⟨outcome, houtcome⟩, hliteral false 6 Byte.singleQuote rfl,
    hinterpolation 7 (by decide), hliteral false 9 Byte.doubleQuote rfl⟩

end Unguarded

end DebugSweep.Cursor
