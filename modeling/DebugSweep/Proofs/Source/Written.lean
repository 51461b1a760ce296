import DebugSweep.Proofs.Source.Lookahead
import DebugSweep.Source.Statement

/-!
# How the arguments of a call are written

`Written` says which texts are written by the rules of the language: in code, brackets in pairs,
comments that end and literals that end; inside a literal, its characters, escapes and
interpolations, which hold code again. `CommentText` is the inside of a block comment.

An open region passes over what is written inside it and is then open as before
(`Written.passed`), whatever follows: brackets, quotes and terminators at any depth are met by the
region that they belong to.
-/

namespace DebugSweep

namespace Byte

/-- Whether the byte is neither a bracket nor a quote nor a slash. -/
def isPlain (b : UInt8) : Bool :=
  !(isQuote b || b == slash || b == openParen || b == closeParen || b == openBrace ||
    b == closeBrace)

/-- A quote is none of the bytes with another meaning inside literals. -/
theorem isQuote_exclusive {quote : UInt8} (h : isQuote quote = true) :
    quote ≠ backslash ∧ quote ≠ dollar ∧ quote ≠ newline ∧ quote ≠ slash ∧
      quote ≠ openBrace := by
  simp only [isQuote, Bool.or_eq_true, beq_iff_eq] at h
  rcases h with rfl | rfl <;> decide

end Byte

namespace Source

/-- Where a text is written: in code directly after a byte, or inside a literal. -/
inductive Place where
  | code (before : UInt8)
  | literal (quote : UInt8) (triple raw : Bool)
  deriving DecidableEq, Repr

/-- The brackets that stand in pairs. -/
def brackets : List (UInt8 × UInt8) :=
  [(Byte.openParen, Byte.closeParen), (Byte.openBrace, Byte.closeBrace)]

/-- The quotes before a literal, and after it. -/
def quotes (quote : UInt8) (triple : Bool) : Bytes :=
  if triple then [quote, quote, quote] else [quote]

/-- The inside of a block comment: comments, and bytes that are neither `/` nor `*`. -/
inductive CommentText : Bytes → Prop
  | nil : CommentText []
  | byte {b : UInt8} {text : Bytes} (hslash : b ≠ Byte.slash) (hstar : b ≠ Byte.star)
      (htext : CommentText text) : CommentText (b :: text)
  | comment {inner text : Bytes} (hinner : CommentText inner) (htext : CommentText text) :
      CommentText (Byte.slash :: Byte.star :: (inner ++ Byte.star :: Byte.slash :: text))

/-- The texts written by the rules at a place. -/
inductive Written : Place → Bytes → Prop
  | nil {place : Place} : Written place []
  | plain {before b : UInt8} {text : Bytes} (hb : Byte.isPlain b = true)
      (htext : Written (.code b) text) : Written (.code before) (b :: text)
  | group {before opener closer : UInt8} {inner text : Bytes} (hpair : (opener, closer) ∈ brackets)
      (hinner : Written (.code opener) inner) (htext : Written (.code closer) text) :
      Written (.code before) (opener :: (inner ++ closer :: text))
  | lineComment {before : UInt8} {comment text : Bytes} (hcomment : Byte.newline ∉ comment)
      (htext : Written (.code Byte.newline) text) :
      Written (.code before) (Byte.slash :: Byte.slash :: (comment ++ Byte.newline :: text))
  | blockComment {before : UInt8} {comment text : Bytes} (hcomment : CommentText comment)
      (htext : Written (.code Byte.slash) text) :
      Written (.code before)
        (Byte.slash :: Byte.star :: (comment ++ Byte.star :: Byte.slash :: text))
  /-- An ordinary literal. After an `r` it would be a raw one, and the two quotes of an empty one
  would begin a triple-quoted one before a third. -/
  | literal {before quote : UInt8} {triple : Bool} {body text : Bytes}
      (hquote : Byte.isQuote quote = true) (hbefore : before ≠ Byte.letterR)
      (hbody : Written (.literal quote triple false) body)
      (hempty : triple = false → body = [] → text.head? ≠ some quote)
      (htext : Written (.code quote) text) :
      Written (.code before) (quotes quote triple ++ (body ++ (quotes quote triple ++ text)))
  | rawLiteral {before quote : UInt8} {triple : Bool} {body text : Bytes}
      (hquote : Byte.isQuote quote = true) (hbefore : Byte.isWord before = false)
      (hbody : Written (.literal quote triple true) body)
      (hempty : triple = false → body = [] → text.head? ≠ some quote)
      (htext : Written (.code quote) text) :
      Written (.code before)
        (Byte.letterR :: (quotes quote triple ++ (body ++ (quotes quote triple ++ text))))
  | character {quote b : UInt8} {triple raw : Bool} {text : Bytes} (hne : b ≠ quote)
      (hnewline : triple = false → b ≠ Byte.newline)
      (hescape : raw = false →
        b ≠ Byte.backslash ∧ (b = Byte.dollar → text.head? ≠ some Byte.openBrace))
      (htext : Written (.literal quote triple raw) text) :
      Written (.literal quote triple raw) (b :: text)
  /-- The own quote of a triple-quoted literal, neither the first of three nor the last byte. -/
  | ownQuote {quote : UInt8} {raw : Bool} {text : Bytes} (hlast : text ≠ [])
      (hrun : ¬[quote, quote] <+: text) (htext : Written (.literal quote true raw) text) :
      Written (.literal quote true raw) (quote :: text)
  | escape {quote c : UInt8} {triple : Bool} {text : Bytes}
      (htext : Written (.literal quote triple false) text) :
      Written (.literal quote triple false) (Byte.backslash :: c :: text)
  | interpolation {quote : UInt8} {triple : Bool} {inner text : Bytes}
      (hinner : Written (.code Byte.openBrace) inner)
      (htext : Written (.literal quote triple false) text) :
      Written (.literal quote triple false)
        (Byte.dollar :: Byte.openBrace :: (inner ++ Byte.closeBrace :: text))

/-- A call of debug output as a statement: its name, its arguments in parentheses and, blanks aside,
the terminator. -/
inductive CallStatement : Bytes → Prop
  | intro {name arguments blanks : Bytes} (hname : name ∈ callNames)
      (harguments : Written (.code Byte.openParen) arguments)
      (hblanks : ∀ b ∈ blanks, Byte.isBlank b = true) :
      CallStatement
        (name ++ Byte.openParen :: (arguments ++ Byte.closeParen :: (blanks ++ [terminator])))

/-- The regions open before `passed` are followed to those open behind it. -/
def Passes (regions next : List Region) (inWord : Bool) (passed rest : Bytes) : Prop :=
  closing? regions inWord (passed ++ rest) =
    (closing? next (wordAfter inWord passed) rest).map (passed.length + ·)

namespace Passes

variable {regions middle next outer : List Region} {region : Region} {inWord : Bool}

theorem nil (regions : List Region) (inWord : Bool) (rest : Bytes) :
    Passes regions regions inWord [] rest := by
  simp [Passes]

theorem append {first second rest : Bytes} (hfirst : Passes regions middle inWord first
    (second ++ rest)) (hsecond : Passes middle next (wordAfter inWord first) second rest) :
    Passes regions next inWord (first ++ second) rest := by
  rw [Passes] at hfirst hsecond ⊢
  rw [List.append_assoc, hfirst, hsecond, map_add_map, wordAfter_append, List.length_append]

theorem step {b : UInt8} {passed rest : Bytes}
    (h : region.step outer inWord b (passed ++ rest) = (next, passed.length + 1)) :
    Passes (region :: outer) next inWord (b :: passed) rest := by
  rw [Passes, List.cons_append, closing?_cons h, List.take_succ_cons, List.take_left,
    List.drop_succ_cons, List.drop_left, List.length_cons]

/-- One step, and what comes after it. -/
theorem cons {b : UInt8} {passed rest : Bytes}
    (h : region.step outer inWord b (passed ++ rest) = (middle, 1))
    (hpassed : Passes middle next (Byte.isWord b) passed rest) :
    Passes (region :: outer) next inWord (b :: passed) rest := by
  have hstep : Passes (region :: outer) middle inWord [b] (passed ++ rest) := step h
  exact hstep.append hpassed

end Passes

/-- A region in which code is read opens the comment or literal that begins there. -/
theorem Region.step_of_opening {region : Region} (hcode : region.readsCode = true)
    {inWord : Bool} {b : UInt8} {rest : Bytes} {inner : Region} {length : Nat}
    (h : opening? inWord (b :: rest) = some (inner, length)) (outer : List Region) :
    region.step outer inWord b rest = (inner :: region :: outer, length) := by
  cases region with
  | arguments nested => simp only [Region.step, h]
  | interpolation nested => simp only [Region.step, h]
  | literal quote triple raw => cases hcode
  | lineComment => cases hcode
  | blockComment nested => cases hcode

/-- A byte that opens nothing and is no bracket leaves a region in which code is read as it is. -/
theorem Region.step_of_isPlain {region : Region} (hcode : region.readsCode = true)
    {inWord : Bool} {b : UInt8} {rest : Bytes} (h : opening? inWord (b :: rest) = none)
    (hb : Byte.isPlain b = true) (outer : List Region) :
    region.step outer inWord b rest = (region :: outer, 1) := by
  simp only [Byte.isPlain, Bool.not_eq_true', Bool.or_eq_false_iff, beq_eq_false_iff_ne] at hb
  obtain ⟨⟨⟨⟨-, hopenParen⟩, hcloseParen⟩, hopenBrace⟩, hcloseBrace⟩ := hb
  cases region with
  | arguments nested => simp [Region.step, h, countNested, hopenParen, hcloseParen]
  | interpolation nested => simp [Region.step, h, countNested, hopenBrace, hcloseBrace]
  | literal quote triple raw => cases hcode
  | lineComment => cases hcode
  | blockComment nested => cases hcode

/-- Between a pair of brackets a region in which code is read counts one bracket more, or none. -/
theorem Region.exists_group {region : Region} (hcode : region.readsCode = true)
    {opener closer : UInt8} (hpair : (opener, closer) ∈ brackets) (outer : List Region) :
    ∃ inner : Region, inner.readsCode = true ∧
      (∀ inWord rest, region.step outer inWord opener rest = (inner :: outer, 1)) ∧
      ∀ inWord rest, inner.step outer inWord closer rest = (region :: outer, 1) := by
  simp only [brackets, List.mem_cons, Prod.mk.injEq, List.not_mem_nil, or_false] at hpair
  cases region with
  | arguments nested =>
    rcases hpair with ⟨rfl, rfl⟩ | ⟨rfl, rfl⟩
    · exact ⟨.arguments (nested + 1), rfl, fun _ _ => rfl, fun _ _ => rfl⟩
    · exact ⟨.arguments nested, rfl, fun _ _ => rfl, fun _ _ => rfl⟩
  | interpolation nested =>
    rcases hpair with ⟨rfl, rfl⟩ | ⟨rfl, rfl⟩
    · exact ⟨.interpolation nested, rfl, fun _ _ => rfl, fun _ _ => rfl⟩
    · exact ⟨.interpolation (nested + 1), rfl, fun _ _ => rfl, fun _ _ => rfl⟩
  | literal quote triple raw => cases hcode
  | lineComment => cases hcode
  | blockComment nested => cases hcode

/-- The inside of a block comment. -/
theorem CommentText.passes {text : Bytes} (h : CommentText text) (nested : Nat)
    (outer : List Region) (inWord : Bool) (rest : Bytes) :
    Passes (.blockComment nested :: outer) (.blockComment nested :: outer) inWord text rest := by
  induction h generalizing nested inWord rest with
  | nil => exact .nil _ _ _
  | byte hslash hstar _ ih =>
    refine .cons ?_ (ih nested _ rest)
    simp only [Region.step, hslash, hstar, false_and, if_false]
  | @comment inner text _ _ ihinner ihtext =>
    have hopen : Passes (.blockComment nested :: outer) (.blockComment (nested + 1) :: outer) inWord
        [Byte.slash, Byte.star] (inner ++ ([Byte.star, Byte.slash] ++ text) ++ rest) := .step rfl
    have hclose (inWord : Bool) : Passes (.blockComment (nested + 1) :: outer)
        (.blockComment nested :: outer) inWord [Byte.star, Byte.slash] (text ++ rest) := .step rfl
    exact hopen.append ((ihinner (nested + 1) _ _).append
      ((hclose _).append (ihtext nested _ rest)))

/-- What the regions open around a place do with a text written there. In code the text leaves them
as they were, unless a quote follows, which could turn an `r` at its end into a mark; a literal is
closed by the quotes that follow its body. -/
def Place.Passed : Place → Bytes → Prop
  | .code before, text => ∀ (region : Region) (outer : List Region) (rest : Bytes),
      region.readsCode = true → (∀ q ∈ rest.head?, Byte.isQuote q = false) →
        Passes (region :: outer) (region :: outer) (Byte.isWord before) text rest
  | .literal quote triple raw, text => ∀ (outer : List Region) (inWord : Bool) (rest : Bytes),
      Byte.isQuote quote = true →
        Passes (.literal quote triple raw :: outer) outer inWord (text ++ quotes quote triple) rest

/-- The quotes of a literal begin with its quote. -/
theorem quotes_eq_cons (quote : UInt8) (triple : Bool) :
    quotes quote triple = quote :: (quotes quote triple).tail := by
  cases triple <;> rfl

/-- After the quotes of a literal no identifier byte stands directly before. -/
theorem wordAfter_quotes (inWord : Bool) (quote : UInt8) (triple : Bool) (body : Bytes) :
    wordAfter inWord (body ++ quotes quote triple) = Byte.isWord quote := by
  cases triple <;> simp [quotes, wordAfter_append]

/-- The body of a single-line literal does not make its quotes look like three. -/
theorem Written.take_two_ne {quote : UInt8} {triple raw : Bool} {body more : Bytes}
    (h : Written (.literal quote triple raw) body) (hquote : Byte.isQuote quote = true)
    (hempty : triple = false → body = [] → more.head? ≠ some quote) (htriple : triple = false) :
    (body ++ (quotes quote triple ++ more)).take 2 ≠ [quote, quote] := by
  subst htriple
  obtain ⟨hbackslash, hdollar, -⟩ := Byte.isQuote_exclusive hquote
  cases h with
  | nil =>
    intro htake
    refine hempty rfl rfl ?_
    cases more with
    | nil => cases htake
    | cons c more => simpa [quotes] using htake
  | character hne => simp [hne]
  | escape => simp [hbackslash.symm]
  | interpolation => simp [hdollar.symm]

/-- The quotes before a literal open it. -/
theorem literalOpening_quotes {raw triple : Bool} {quote : UInt8} {text : Bytes}
    (h : triple = false → text.take 2 ≠ [quote, quote]) :
    literalOpening raw quote ((quotes quote triple).tail ++ text) =
      (.literal quote triple raw, (quotes quote triple).length) := by
  cases triple with
  | false => simp [literalOpening, quotes, h rfl]
  | true => simp [literalOpening, quotes]

/-- Quotes open an ordinary literal. -/
theorem opening?_quotes {quote : UInt8} (hquote : Byte.isQuote quote = true) {triple : Bool}
    {text : Bytes} (h : triple = false → text.take 2 ≠ [quote, quote]) (inWord : Bool) :
    opening? inWord (quotes quote triple ++ text) =
      some (.literal quote triple false, (quotes quote triple).length) := by
  obtain ⟨-, -, -, hslash, -⟩ := Byte.isQuote_exclusive hquote
  rw [quotes_eq_cons, List.cons_append]
  simp only [opening?, if_neg hslash, hquote, ↓reduceIte, literalOpening_quotes h]
  rw [← quotes_eq_cons]

/-- A mark and quotes open a raw literal. -/
theorem opening?_rawQuotes {quote : UInt8} (hquote : Byte.isQuote quote = true) {triple : Bool}
    {text : Bytes} (h : triple = false → text.take 2 ≠ [quote, quote]) :
    opening? false (Byte.letterR :: (quotes quote triple ++ text)) =
      some (.literal quote triple true, (quotes quote triple).length + 1) := by
  rw [quotes_eq_cons, List.cons_append]
  simp only [opening?, hquote, ↓reduceIte, literalOpening_quotes h]
  rw [← quotes_eq_cons]
  rfl

/-- An ordinary literal is opened by its quotes. -/
theorem passes_openingQuotes {region : Region} (hcode : region.readsCode = true) {quote : UInt8}
    (hquote : Byte.isQuote quote = true) {triple : Bool} {text : Bytes}
    (h : triple = false → text.take 2 ≠ [quote, quote]) (outer : List Region) (inWord : Bool) :
    Passes (region :: outer) (.literal quote triple false :: region :: outer) inWord
      (quotes quote triple) text := by
  have hlength : (quotes quote triple).tail.length + 1 = (quotes quote triple).length := by
    cases triple <;> rfl
  have hopen : opening? inWord (quote :: ((quotes quote triple).tail ++ text)) =
      some (.literal quote triple false, (quotes quote triple).tail.length + 1) := by
    rw [← List.cons_append, ← quotes_eq_cons, opening?_quotes hquote h, hlength]
  have hstep := Passes.step (Region.step_of_opening hcode hopen outer)
  rwa [← quotes_eq_cons] at hstep

/-- A raw literal is opened by its mark and its quotes. -/
theorem passes_rawOpening {region : Region} (hcode : region.readsCode = true) {quote : UInt8}
    (hquote : Byte.isQuote quote = true) {triple : Bool} {text : Bytes}
    (h : triple = false → text.take 2 ≠ [quote, quote]) (outer : List Region) :
    Passes (region :: outer) (.literal quote triple true :: region :: outer) false
      (Byte.letterR :: quotes quote triple) text :=
  .step (Region.step_of_opening hcode (opening?_rawQuotes hquote h) outer)

/-- The quotes after a literal close it. -/
theorem passes_quotes {quote : UInt8} (hquote : Byte.isQuote quote = true) (triple raw : Bool)
    (outer : List Region) (inWord : Bool) (rest : Bytes) :
    Passes (.literal quote triple raw :: outer) outer inWord (quotes quote triple) rest := by
  obtain ⟨hbackslash, hdollar, -⟩ := Byte.isQuote_exclusive hquote
  cases triple with
  | false => exact .step (by simp [Region.step, hbackslash, hdollar])
  | true => exact .step (by simp [Region.step, hbackslash, hdollar])

/-- A literal is its opening, its body with the quotes that close it, and what follows. -/
theorem passes_literal {region : Region} {outer : List Region} {quote : UInt8} {triple raw : Bool}
    {inWord : Bool} {opening body text rest : Bytes} (hquote : Byte.isQuote quote = true)
    (hopening : Passes (region :: outer) (.literal quote triple raw :: region :: outer) inWord
      opening (body ++ (quotes quote triple ++ (text ++ rest))))
    (hbody : (Place.literal quote triple raw).Passed body)
    (htext : Passes (region :: outer) (region :: outer) (Byte.isWord quote) text rest) :
    Passes (region :: outer) (region :: outer) inWord
      (opening ++ (body ++ (quotes quote triple ++ text))) rest := by
  rw [← List.append_assoc body]
  refine .append ?_ (.append (hbody (region :: outer) _ _ hquote) ?_)
  · simpa only [List.append_assoc] using hopening
  · rwa [wordAfter_quotes]

/-- A triple-quoted literal does not consist of its own quote. -/
theorem Written.ne_singleton {quote : UInt8} {raw : Bool} {text : Bytes}
    (h : Written (.literal quote true raw) text) : text ≠ [quote] := by
  cases h with
  | nil => simp
  | character hne => simp [hne]
  | ownQuote hlast => simp [hlast]
  | escape => simp
  | interpolation => simp

/-- What does not begin with the quote of an empty literal does not so before more text. -/
theorem head?_append_ne {quote : UInt8} {triple : Bool} {body text rest : Bytes}
    (hquote : Byte.isQuote quote = true)
    (hempty : triple = false → body = [] → text.head? ≠ some quote)
    (hrest : ∀ q ∈ rest.head?, Byte.isQuote q = false) (htriple : triple = false)
    (hbody : body = []) : (text ++ rest).head? ≠ some quote := by
  cases text with
  | nil =>
    intro hhead
    rw [hrest quote hhead] at hquote
    cases hquote
  | cons b text => exact hempty htriple hbody

/-- A bracket is no quote. -/
theorem isQuote_of_mem_brackets {opener closer : UInt8} (h : (opener, closer) ∈ brackets) :
    Byte.isQuote opener = false ∧ Byte.isQuote closer = false := by
  simp only [brackets, List.mem_cons, Prod.mk.injEq, List.not_mem_nil, or_false] at h
  rcases h with ⟨rfl, rfl⟩ | ⟨rfl, rfl⟩ <;> exact ⟨rfl, rfl⟩

/-- A line comment runs up to the newline of its line. -/
theorem passes_lineComment {comment : Bytes} (h : Byte.newline ∉ comment) (outer : List Region)
    (inWord : Bool) (rest : Bytes) :
    Passes (.lineComment :: outer) outer inWord (Byte.slash :: comment) (Byte.newline :: rest) := by
  have hclose := (closing?_lineComment_append h inWord Byte.slash (Byte.newline :: rest)).1 rfl
  rw [Passes, ← List.singleton_append, closing?_append, List.cons_append, hclose, Option.bind_some,
    ← List.length_cons (a := Byte.slash), ← List.cons_append, List.take_left, List.drop_left]

/-- Directly after an `r` no literal is written, so the `r` marks none. -/
theorem Written.not_isQuote_head {text : Bytes} (h : Written (.code Byte.letterR) text)
    {rest : Bytes} (hrest : ∀ q ∈ rest.head?, Byte.isQuote q = false) :
    ∀ q ∈ (text ++ rest).head?, Byte.isQuote q = false := by
  cases h with
  | nil => exact hrest
  | plain hb =>
    rintro q ⟨⟩
    simp only [Byte.isPlain, Bool.not_eq_true', Bool.or_eq_false_iff] at hb
    exact hb.1.1.1.1.1
  | group hpair =>
    rintro q ⟨⟩
    exact (isQuote_of_mem_brackets hpair).1
  | lineComment => rintro q ⟨⟩; rfl
  | blockComment => rintro q ⟨⟩; rfl
  | literal _ hbefore => exact absurd rfl hbefore
  | rawLiteral => rintro q ⟨⟩; rfl

/-- A byte that is no slash and no quote opens nothing, unless it marks a raw literal. -/
theorem opening?_of_ne_slash {b : UInt8} (hslash : b ≠ Byte.slash) (hquote : Byte.isQuote b = false)
    {inWord : Bool} {rest : Bytes} (h : b = Byte.letterR → inWord = false →
      ∀ q ∈ rest.head?, Byte.isQuote q = false) : opening? inWord (b :: rest) = none := by
  simp only [opening?, if_neg hslash, hquote, Bool.false_eq_true, ↓reduceIte]
  split_ifs with hraw
  · cases rest with
    | nil => rfl
    | cons q tail =>
      simp only [Bool.and_eq_true, decide_eq_true_eq, Bool.not_eq_true'] at hraw
      simp [h hraw.1 hraw.2 q rfl]
  · rfl

/-- A plain byte opens nothing, unless it is an `r` before a quote. -/
theorem opening?_of_isPlain {b : UInt8} (hb : Byte.isPlain b = true) {rest : Bytes}
    (h : b = Byte.letterR → ∀ q ∈ rest.head?, Byte.isQuote q = false) (inWord : Bool) :
    opening? inWord (b :: rest) = none := by
  simp only [Byte.isPlain, Bool.not_eq_true', Bool.or_eq_false_iff, beq_eq_false_iff_ne] at hb
  exact opening?_of_ne_slash hb.1.1.1.1.2 hb.1.1.1.1.1 fun hletter _ => h hletter

/-- Whatever is written at a place is passed there. -/
theorem Written.passed {place : Place} {text : Bytes} (h : Written place text) :
    place.Passed text := by
  induction h with
  | @nil place =>
    cases place with
    | code before => exact fun _ _ _ _ _ => .nil _ _ _
    | literal quote triple raw =>
      exact fun outer inWord rest hquote => passes_quotes hquote triple raw outer inWord rest
  | @plain before b text hb htext ih =>
    intro region outer rest hcode hrest
    refine .cons (Region.step_of_isPlain hcode ?_ hb outer) (ih region outer rest hcode hrest)
    exact opening?_of_isPlain hb (fun hletter => (hletter ▸ htext).not_isQuote_head hrest) _
  | @group before opener closer inner text hpair _ _ ihinner ihtext =>
    intro region outer rest hcode hrest
    obtain ⟨nested, hnested, hopen, hclose⟩ := Region.exists_group hcode hpair outer
    have hcloser : ∀ q ∈ (closer :: text ++ rest).head?, Byte.isQuote q = false := by
      rintro q ⟨⟩
      exact (isQuote_of_mem_brackets hpair).2
    exact .cons (hopen _ _) ((ihinner nested outer _ hnested hcloser).append
      (.cons (hclose _ _) (ihtext region outer rest hcode hrest)))
  | @lineComment before comment text hcomment _ ih =>
    intro region outer rest hcode hrest
    have hopen : Passes (region :: outer) (.lineComment :: region :: outer) (Byte.isWord before)
        [Byte.slash] (Byte.slash :: comment ++ Byte.newline :: text ++ rest) :=
      .step (Region.step_of_opening hcode rfl outer)
    have hnone (inWord : Bool) : opening? inWord (Byte.newline :: (text ++ rest)) = none :=
      opening?_of_isPlain rfl (fun h => absurd h (by decide)) inWord
    have hnewline (inWord : Bool) :
        region.step outer inWord Byte.newline (text ++ rest) = (region :: outer, 1) :=
      Region.step_of_isPlain hcode (hnone inWord) rfl outer
    exact hopen.append ((passes_lineComment hcomment _ _ _).append
      (.cons (hnewline _) (ih region outer rest hcode hrest)))
  | @blockComment before comment text hcomment _ ih =>
    intro region outer rest hcode hrest
    have hopen : Passes (region :: outer) (.blockComment 0 :: region :: outer) (Byte.isWord before)
        [Byte.slash, Byte.star] (comment ++ ([Byte.star, Byte.slash] ++ text) ++ rest) :=
      .step (Region.step_of_opening hcode rfl outer)
    have hclose (inWord : Bool) : Passes (.blockComment 0 :: region :: outer) (region :: outer)
        inWord [Byte.star, Byte.slash] (text ++ rest) := .step rfl
    exact hopen.append ((hcomment.passes 0 _ _ _).append
      ((hclose _).append (ih region outer rest hcode hrest)))
  | @literal before quote triple body text hquote _ hbody hempty _ ihbody ihtext =>
    intro region outer rest hcode hrest
    have htwo := hbody.take_two_ne hquote (head?_append_ne hquote hempty hrest)
    exact passes_literal hquote (passes_openingQuotes hcode hquote htwo outer _) ihbody
      (ihtext region outer rest hcode hrest)
  | @rawLiteral before quote triple body text hquote hbefore hbody hempty _ ihbody ihtext =>
    intro region outer rest hcode hrest
    have htwo := hbody.take_two_ne hquote (head?_append_ne hquote hempty hrest)
    rw [hbefore]
    exact passes_literal hquote (passes_rawOpening hcode hquote htwo outer) ihbody
      (ihtext region outer rest hcode hrest)
  | @character quote b triple raw text hne hnewline hescape _ ih =>
    intro outer inWord rest hquote
    rw [List.cons_append]
    refine .cons ?_ (ih outer _ rest hquote)
    have hdollar : ¬(b = Byte.dollar ∧ raw = false ∧
        (text ++ quotes quote triple ++ rest).head? = some Byte.openBrace) := by
      rintro ⟨hb, hraw, hhead⟩
      cases text with
      | nil =>
        rw [List.nil_append, quotes_eq_cons] at hhead
        exact (Byte.isQuote_exclusive hquote).2.2.2.2 (Option.some.inj hhead)
      | cons c text => exact (hescape hraw).2 hb hhead
    have hline : ¬(b = Byte.newline ∧ triple = false) := fun h => hnewline h.2 h.1
    have hbackslash : ¬(b = Byte.backslash ∧ raw = false) := fun h => (hescape h.2).1 h.1
    simp only [Region.step, Bool.not_eq_true', hbackslash, hdollar, hne, hline, false_and, if_false]
  | @ownQuote quote raw text hlast hrun htext ih =>
    intro outer inWord rest hquote
    obtain ⟨hbackslash, hdollar, -⟩ := Byte.isQuote_exclusive hquote
    rw [List.cons_append]
    refine .cons ?_ (ih outer _ rest hquote)
    have htwo : (text ++ quotes quote true ++ rest).take 2 ≠ [quote, quote] := by
      intro htake
      rcases text with _ | ⟨c, _ | ⟨d, text⟩⟩
      · exact hlast rfl
      · exact htext.ne_singleton (by simpa [quotes] using htake)
      · exact hrun ⟨text, by simpa using htake.symm⟩
    simp only [Region.step, hbackslash, hdollar, htwo, false_and, and_false, Bool.not_true,
      Bool.false_eq_true, if_false]
  | @escape quote c triple text _ ih =>
    intro outer inWord rest hquote
    have hescape : Passes (.literal quote triple false :: outer)
        (.literal quote triple false :: outer) inWord [Byte.backslash, c]
        (text ++ quotes quote triple ++ rest) := .step rfl
    exact hescape.append (ih outer _ rest hquote)
  | @interpolation quote triple inner text _ _ ihinner ihtext =>
    intro outer inWord rest hquote
    have hopen : Passes (.literal quote triple false :: outer)
        (.interpolation 0 :: .literal quote triple false :: outer) inWord
        [Byte.dollar, Byte.openBrace]
        (inner ++ Byte.closeBrace :: (text ++ quotes quote triple) ++ rest) := .step rfl
    have hclose (inWord : Bool) : Region.step (.interpolation 0)
        (.literal quote triple false :: outer) inWord Byte.closeBrace
        (text ++ quotes quote triple ++ rest) = (.literal quote triple false :: outer, 1) := rfl
    have hcloser : ∀ q ∈ (Byte.closeBrace :: (text ++ quotes quote triple) ++ rest).head?,
        Byte.isQuote q = false := by
      rintro q ⟨⟩
      rfl
    have hpassed := hopen.append ((ihinner (.interpolation 0) _ _ rfl hcloser).append
      (.cons (hclose _) (ihtext outer _ rest hquote)))
    simpa only [List.append_assoc, List.cons_append, List.nil_append] using hpassed

/-- What an argument list passes over is closed by the parenthesis that follows. -/
theorem Passes.closing?_arguments {arguments rest : Bytes}
    (h : Passes [.arguments 0] [.arguments 0] false arguments (Byte.closeParen :: rest)) :
    closing? [.arguments 0] false (arguments ++ Byte.closeParen :: rest) =
      some (arguments.length + 1) := by
  have hstep (inWord : Bool) :
      (Region.arguments 0).step [] inWord Byte.closeParen rest = ([], 1) := rfl
  rw [Passes, closing?_cons (hstep _), closing?_no_regions] at h
  exact h

/-- Arguments close at the parenthesis that follows them. -/
theorem Written.closing?_arguments {arguments : Bytes}
    (h : Written (.code Byte.openParen) arguments) (rest : Bytes) :
    closing? [.arguments 0] false (arguments ++ Byte.closeParen :: rest) =
      some (arguments.length + 1) := by
  have hcloser : ∀ q ∈ (Byte.closeParen :: rest).head?, Byte.isQuote q = false := by
    rintro q ⟨⟩
    rfl
  exact (h.passed (.arguments 0) [] (Byte.closeParen :: rest) rfl hcloser).closing?_arguments

end Source

end DebugSweep
