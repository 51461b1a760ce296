import DebugSweep.Proofs.Source.Written

/-!
# What comments and literals are

A lexeme is a comment if it is a line comment, which runs up to the newline of its line, or a block
comment, in which comments nest (`BlockRest`), or a block comment that is never closed, which runs
to the end of the text (`Lexeme.heads_comment_iff`). What is written between quotes by the rules of
the language makes a literal with them (`Lexeme.heads_literal`, `Lexeme.heads_rawLiteral`).
-/

namespace DebugSweep.Source

/-- What remains of a block comment in which `nested` further comments are open: up to its own end,
with the ends of those before. -/
inductive BlockRest : Nat → Bytes → Prop
  | close : BlockRest 0 [Byte.star, Byte.slash]
  | inner {nested : Nat} {text : Bytes} (h : BlockRest (nested + 1) text) :
      BlockRest nested (Byte.slash :: Byte.star :: text)
  | closeInner {nested : Nat} {text : Bytes} (h : BlockRest nested text) :
      BlockRest (nested + 1) (Byte.star :: Byte.slash :: text)
  /-- A byte with which no comment opens or closes. -/
  | byte {nested : Nat} {b : UInt8} {text : Bytes}
      (hopen : ¬(b = Byte.slash ∧ text.head? = some Byte.star))
      (hclose : ¬(b = Byte.star ∧ text.head? = some Byte.slash)) (h : BlockRest nested text) :
      BlockRest nested (b :: text)

namespace BlockRest

variable {nested : Nat} {text : Bytes}

theorem text_ne_nil (h : BlockRest nested text) : text ≠ [] := by
  cases h <;> exact List.cons_ne_nil _ _

/-- A block comment closes where what remains of it ends. -/
theorem passes (h : BlockRest nested text) (inWord : Bool) (rest : Bytes) :
    Passes [.blockComment nested] [] inWord text rest := by
  induction h generalizing inWord with
  | close => exact .step rfl
  | @inner nested text _ ih =>
    have hopen : Passes [.blockComment nested] [.blockComment (nested + 1)] inWord
        [Byte.slash, Byte.star] (text ++ rest) := .step rfl
    exact hopen.append (ih _)
  | @closeInner nested text _ ih =>
    have hclose : Passes [.blockComment (nested + 1)] [.blockComment nested] inWord
        [Byte.star, Byte.slash] (text ++ rest) := .step rfl
    exact hclose.append (ih _)
  | @byte nested b text hopen hclose h ih =>
    have hhead : (text ++ rest).head? = text.head? := List.head?_append_of_ne_nil _ h.text_ne_nil
    refine .cons ?_ (ih _)
    simp only [Region.step, hhead, if_neg hopen, if_neg hclose]

theorem closing?_eq (h : BlockRest nested text) (inWord : Bool) (rest : Bytes) :
    closing? [.blockComment nested] inWord (text ++ rest) = some text.length := by
  rw [h.passes inWord rest, closing?_no_regions]
  rfl

end BlockRest

/-- What a block comment passes over before it closes is what remains of it. -/
theorem exists_blockRest {nested : Nat} {inWord : Bool} {text : Bytes} {n : Nat}
    (h : closing? [.blockComment nested] inWord text = some n) :
    ∃ body rest, text = body ++ rest ∧ body.length = n ∧ BlockRest nested body := by
  induction hlength : text.length using Nat.strong_induction_on
    generalizing nested inWord text n with
  | _ length ih =>
    subst hlength
    cases text with
    | nil => cases h
    | cons b tail =>
      by_cases hopen : b = Byte.slash ∧ tail.head? = some Byte.star
      · obtain ⟨rfl, hstar⟩ := hopen
        obtain ⟨tail, rfl⟩ := List.head?_eq_some_iff.mp hstar
        have hstep : (Region.blockComment nested).step [] inWord Byte.slash (Byte.star :: tail) =
            ([.blockComment (nested + 1)], 2) := rfl
        obtain ⟨m, hm, rfl⟩ := exists_of_closing?_cons hstep h
        obtain ⟨body, rest, rfl, rfl, hbody⟩ :=
          ih tail.length (by simp only [List.length_cons]; omega) hm rfl
        exact ⟨_, rest, rfl, by simp only [List.length_cons]; omega, hbody.inner⟩
      · by_cases hclose : b = Byte.star ∧ tail.head? = some Byte.slash
        · obtain ⟨rfl, hslash⟩ := hclose
          obtain ⟨tail, rfl⟩ := List.head?_eq_some_iff.mp hslash
          cases nested with
          | zero =>
            have hstep : (Region.blockComment 0).step [] inWord Byte.star (Byte.slash :: tail) =
                ([], 2) := rfl
            obtain ⟨m, hm, rfl⟩ := exists_of_closing?_cons hstep h
            rw [closing?_no_regions] at hm
            cases hm
            exact ⟨_, tail, rfl, rfl, .close⟩
          | succ nested =>
            have hstep : (Region.blockComment (nested + 1)).step [] inWord Byte.star
                (Byte.slash :: tail) = ([.blockComment nested], 2) := rfl
            obtain ⟨m, hm, rfl⟩ := exists_of_closing?_cons hstep h
            obtain ⟨body, rest, rfl, rfl, hbody⟩ :=
              ih tail.length (by simp only [List.length_cons]; omega) hm rfl
            exact ⟨_, rest, rfl, by simp only [List.length_cons]; omega, hbody.closeInner⟩
        · have hstep : (Region.blockComment nested).step [] inWord b tail =
              ([.blockComment nested], 1) := by
            simp only [Region.step, if_neg hopen, if_neg hclose]
          obtain ⟨m, hm, rfl⟩ := exists_of_closing?_cons hstep h
          obtain ⟨body, rest, htail, rfl, hbody⟩ := ih tail.length (by simp) hm rfl
          obtain rfl : tail = body ++ rest := htail
          rw [List.head?_append_of_ne_nil _ hbody.text_ne_nil] at hopen hclose
          exact ⟨_, rest, rfl, Nat.add_comm _ _, hbody.byte hopen hclose⟩

/-- A text is its first line, and what begins with the newline of it or is nothing. -/
theorem exists_line (text : Bytes) :
    ∃ line rest, text = line ++ rest ∧ Byte.newline ∉ line ∧
      (rest = [] ∨ rest.head? = some Byte.newline) := by
  induction text with
  | nil => exact ⟨[], [], rfl, List.not_mem_nil, .inl rfl⟩
  | cons b text ih =>
    by_cases hb : b = Byte.newline
    · exact ⟨[], b :: text, rfl, List.not_mem_nil, .inr (congrArg some hb)⟩
    · obtain ⟨line, rest, rfl, hline, hrest⟩ := ih
      refine ⟨b :: line, rest, rfl, fun hmem => ?_, hrest⟩
      exact (List.mem_cons.mp hmem).elim (fun h => hb h.symm) hline

/-- A text with what follows it, if the text is a comment: it runs up to the newline of its line, or
to its own end however many comments are inside it, or to the end of everything. -/
inductive Comment : Bytes → Bytes → Prop
  | line {line rest : Bytes} (hline : Byte.newline ∉ line)
      (hrest : rest = [] ∨ rest.head? = some Byte.newline) :
      Comment (Byte.slash :: Byte.slash :: line) rest
  | block {body : Bytes} (hbody : BlockRest 0 body) (rest : Bytes) :
      Comment (Byte.slash :: Byte.star :: body) rest
  | unclosed {body : Bytes} (hbody : ∀ part, part <+: body → ¬BlockRest 0 part) :
      Comment (Byte.slash :: Byte.star :: body) []

/-- After the two bytes that open a comment, one stands there. -/
theorem exists_comment {b : UInt8} (hb : b = Byte.slash ∨ b = Byte.star) (more : Bytes) :
    ∃ text rest, Byte.slash :: b :: more = text ++ rest ∧ Comment text rest := by
  rcases hb with rfl | rfl
  · obtain ⟨line, rest, rfl, hline, hrest⟩ := exists_line more
    exact ⟨_, rest, rfl, .line hline hrest⟩
  · by_cases hclosed : ∃ part, part <+: more ∧ BlockRest 0 part
    · obtain ⟨part, ⟨rest, rfl⟩, hpart⟩ := hclosed
      exact ⟨_, rest, rfl, .block hpart rest⟩
    · refine ⟨_, [], (List.append_nil _).symm, .unclosed fun part hpart hrest => ?_⟩
      exact hclosed ⟨part, hpart, hrest⟩

namespace Lexeme

variable {inWord : Bool} {text rest : Bytes}

/-- One lexeme at most stands at the head of a text. -/
theorem Heads.unique {lexeme lexeme' : Lexeme} {rest' : Bytes} (h : lexeme.Heads inWord rest)
    (h' : lexeme'.Heads inWord rest') (hsame : lexeme.text ++ rest = lexeme'.text ++ rest') :
    lexeme = lexeme' ∧ rest = rest' := by
  have hlexemes := lexemesFrom_of_heads h
  rw [hsame, lexemesFrom_of_heads h', List.cons.injEq] at hlexemes
  obtain ⟨rfl, -⟩ := hlexemes
  exact ⟨rfl, List.append_cancel_left hsame⟩

/-- A comment is a lexeme. -/
theorem heads_comment (h : Comment text rest) (inWord : Bool) :
    Heads inWord ⟨.comment, text⟩ rest := by
  cases h with
  | line hline hrest => exact heads_lineComment hline hrest inWord
  | @block body hbody rest =>
    have hopen : opening? inWord (Byte.slash :: Byte.star :: (body ++ rest)) =
        some (.blockComment 0, 2) := rfl
    refine .comment rfl ?_
    rw [List.cons_append, List.cons_append, triviaLength?_eq, hopen, Option.map_some]
    simp only [List.drop_succ_cons, List.drop_zero, hbody.closing?_eq, Option.elim,
      List.length_cons, Option.some.injEq]
    omega
  | @unclosed body hbody =>
    have hopen : opening? inWord (Byte.slash :: Byte.star :: body) = some (.blockComment 0, 2) :=
      rfl
    refine .comment rfl ?_
    rw [List.append_nil, triviaLength?_eq, hopen, Option.map_some]
    simp only [List.drop_succ_cons, List.drop_zero]
    cases hclose : closing? [.blockComment 0] false body with
    | none => rfl
    | some n =>
      obtain ⟨part, after, rfl, -, hpart⟩ := exists_blockRest hclose
      exact absurd hpart (hbody part (List.prefix_append _ _))

/-- A comment opens with two bytes. -/
theorem Heads.exists_opening (h : Heads inWord ⟨.comment, text⟩ rest) :
    ∃ b more, text ++ rest = Byte.slash :: b :: more ∧ (b = Byte.slash ∨ b = Byte.star) := by
  cases h with
  | comment hslash htrivia =>
    obtain ⟨tail, rfl⟩ := List.head?_eq_some_iff.mp hslash
    rw [triviaLength?_eq, Option.map_eq_some_iff] at htrivia
    obtain ⟨⟨region, length⟩, hopen, -⟩ := htrivia
    rw [List.cons_append] at hopen ⊢
    rcases opening?_cases hopen with ⟨-, ⟨hhead, -⟩ | ⟨hhead, -⟩⟩ | ⟨hquote, -⟩ | ⟨hletter, -⟩
    · obtain ⟨more, hmore⟩ := List.head?_eq_some_iff.mp hhead
      exact ⟨_, more, congrArg _ hmore, .inl rfl⟩
    · obtain ⟨more, hmore⟩ := List.head?_eq_some_iff.mp hhead
      exact ⟨_, more, congrArg _ hmore, .inr rfl⟩
    · cases hquote
    · exact absurd hletter (by decide)

/-- A lexeme is a comment just where a comment stands. -/
theorem heads_comment_iff : Heads inWord ⟨.comment, text⟩ rest ↔ Comment text rest := by
  refine ⟨fun h => ?_, fun h => heads_comment h inWord⟩
  obtain ⟨b, more, hopens, hb⟩ := h.exists_opening
  obtain ⟨text', rest', hsplit, hcomment⟩ := exists_comment hb more
  obtain ⟨hlexeme, rfl⟩ := h.unique (heads_comment hcomment inWord) (hopens.trans hsplit)
  cases hlexeme
  exact hcomment

/-- A comment in a comment does not end it, and the end of the line does not end either. -/
example : lexemes (ascii "/* a /* b */ \n */;") =
    [⟨.comment, ascii "/* a /* b */ \n */"⟩, single terminator] := by
  rfl

/-- What opens a literal, its body and the quotes after it are a literal. -/
theorem heads_of_opening {quote : UInt8} {triple raw : Bool} {opening body : Bytes}
    (hquote : Byte.isQuote quote = true) (hslash : opening.head? ≠ some Byte.slash)
    (hbody : Written (.literal quote triple raw) body) (hopening : opening ≠ [])
    (hopen : opening? inWord (opening ++ (body ++ (quotes quote triple ++ rest))) =
      some (.literal quote triple raw, opening.length)) :
    Heads inWord ⟨.literal, opening ++ (body ++ quotes quote triple)⟩ rest := by
  have hclose : closing? [.literal quote triple raw] false (body ++ (quotes quote triple ++ rest)) =
      some (body ++ quotes quote triple).length := by
    have hpasses := hbody.passed [] false rest hquote
    rw [Passes, closing?_no_regions, List.append_assoc] at hpasses
    exact hpasses
  refine .literal ?_ ?_
  · rwa [List.head?_append_of_ne_nil _ hopening]
  · rw [List.append_assoc, List.append_assoc, triviaLength?_eq, hopen, Option.map_some]
    simp only [List.drop_left, hclose, Option.elim, List.length_append]

/-- A text between quotes makes an ordinary literal with them. -/
theorem heads_literal {quote : UInt8} {triple : Bool} {body : Bytes}
    (hquote : Byte.isQuote quote = true) (hbody : Written (.literal quote triple false) body)
    (hempty : triple = false → body = [] → rest.head? ≠ some quote) (inWord : Bool) :
    Heads inWord ⟨.literal, quotes quote triple ++ (body ++ quotes quote triple)⟩ rest := by
  obtain ⟨-, -, -, hslash, -⟩ := Byte.isQuote_exclusive hquote
  have hhead : (quotes quote triple).head? = some quote := by cases triple <;> rfl
  refine heads_of_opening hquote ?_ hbody ?_ ?_
  · rw [hhead]
    exact fun h => hslash (Option.some.inj h)
  · rw [quotes_eq_cons]
    exact List.cons_ne_nil _ _
  · exact opening?_quotes hquote (hbody.take_two_ne hquote hempty) inWord

/-- An `r` that does not belong to an identifier before it makes a raw literal with such a text. -/
theorem heads_rawLiteral {quote : UInt8} {triple : Bool} {body : Bytes}
    (hquote : Byte.isQuote quote = true) (hbody : Written (.literal quote triple true) body)
    (hempty : triple = false → body = [] → rest.head? ≠ some quote) :
    Heads false
      ⟨.literal, Byte.letterR :: quotes quote triple ++ (body ++ quotes quote triple)⟩ rest :=
  heads_of_opening hquote (by rw [List.head?_cons]; decide) hbody (List.cons_ne_nil _ _)
    (opening?_rawQuotes hquote (hbody.take_two_ne hquote hempty))

end Lexeme

end DebugSweep.Source
