import DebugSweep.Proofs.Source.Written

/-!
# Plain arguments

Arguments that can be read without a grammar: bytes of no meaning of their own, and such bytes
between two quotes. Unlike what is written by the rules of the language (`Written`), braces need not
stand in pairs, and an `r` may stand directly before a quote, as the end of a word or as the mark of
a raw literal. An argument list is open behind plain arguments as it was before, so it is closed by
the parenthesis that follows them.
-/

namespace DebugSweep

/-- Whether the byte is no parenthesis, quote, slash, backslash, terminator or newline. -/
def Byte.isInert (b : UInt8) : Bool :=
  !(isQuote b || b == openParen || b == closeParen || b == semicolon || b == slash ||
    b == backslash || b == newline)

namespace Source

/-- Inert bytes, and literals on one line with inert bytes between their quotes. -/
inductive PlainArguments : Bytes → Prop
  | nil : PlainArguments []
  | byte {b : UInt8} {text : Bytes} (hb : Byte.isInert b = true) (htext : PlainArguments text) :
      PlainArguments (b :: text)
  | literal {quote : UInt8} {body text : Bytes} (hquote : Byte.isQuote quote = true)
      (hnonempty : body ≠ []) (hbody : ∀ b ∈ body, Byte.isInert b = true)
      (htext : PlainArguments text) : PlainArguments (quote :: (body ++ quote :: text))

/-- The beginning of an interpolation. -/
def interpolationOpening : Bytes := [Byte.dollar, Byte.openBrace]

/-- What an inert byte is not. -/
theorem ne_of_isInert {b : UInt8} (h : Byte.isInert b = true) :
    Byte.isQuote b = false ∧ b ≠ Byte.openParen ∧ b ≠ Byte.closeParen ∧ b ≠ Byte.semicolon ∧
      b ≠ Byte.slash ∧ b ≠ Byte.backslash ∧ b ≠ Byte.newline := by
  simpa only [Byte.isInert, Bool.not_eq_true', Bool.or_eq_false_iff, beq_eq_false_iff_ne,
    and_assoc] using h

/-- Inert bytes are the body of a literal if no interpolation begins among them. -/
theorem written_of_isInert {quote : UInt8} (hquote : Byte.isQuote quote = true) {body : Bytes}
    (hbody : ∀ b ∈ body, Byte.isInert b = true) (hnone : ¬interpolationOpening <:+: body)
    (raw : Bool) : Written (.literal quote false raw) body := by
  induction body with
  | nil => exact .nil
  | cons b body ih =>
    rw [List.forall_mem_cons] at hbody
    obtain ⟨hb, -, -, -, -, hbackslash, hnewline⟩ := ne_of_isInert hbody.1
    have hne : b ≠ quote := by
      rintro rfl
      rw [hquote] at hb
      cases hb
    have hdollar : b = Byte.dollar → body.head? ≠ some Byte.openBrace := by
      rintro rfl hhead
      obtain ⟨tail, rfl⟩ := List.head?_eq_some_iff.mp hhead
      exact hnone (List.prefix_append interpolationOpening tail).isInfix
    exact .character hne (fun _ => hnewline) (fun _ => ⟨hbackslash, hdollar⟩)
      (ih hbody.2 fun hoccurs => hnone (List.infix_cons hoccurs))

/-- A plain literal is passed over from its opening, with or without the mark of a raw one. -/
theorem passes_plainLiteral {quote : UInt8} (hquote : Byte.isQuote quote = true) {body : Bytes}
    (hnonempty : body ≠ []) (hbody : ∀ b ∈ body, Byte.isInert b = true)
    (hnone : ¬interpolationOpening <:+: body) {raw inWord : Bool} {opening text rest : Bytes}
    (hopening : ∀ more : Bytes, more.take 2 ≠ [quote, quote] →
      Passes [.arguments 0] [.literal quote false raw, .arguments 0] inWord opening more)
    (htext : Passes [.arguments 0] [.arguments 0] (Byte.isWord quote) text rest) :
    Passes [.arguments 0] [.arguments 0] inWord (opening ++ (body ++ quote :: text)) rest := by
  have hwritten := written_of_isInert hquote hbody hnone raw
  have htwo : (body ++ (quotes quote false ++ (text ++ rest))).take 2 ≠ [quote, quote] :=
    hwritten.take_two_ne hquote (fun _ hempty => absurd hempty hnonempty) rfl
  exact passes_literal hquote (hopening _ htwo) hwritten.passed htext

/-- An inert byte leaves an argument list as it is, unless it marks a raw literal. -/
theorem passes_inert {b : UInt8} (hb : Byte.isInert b = true) {text rest : Bytes}
    {inWord : Bool} (h : b = Byte.letterR → inWord = false →
      ∀ q ∈ (text ++ rest).head?, Byte.isQuote q = false)
    (htext : Passes [.arguments 0] [.arguments 0] (Byte.isWord b) text rest) :
    Passes [.arguments 0] [.arguments 0] inWord (b :: text) rest := by
  obtain ⟨hquote, hopenParen, hcloseParen, -, hslash, -, -⟩ := ne_of_isInert hb
  refine .cons ?_ htext
  simp only [Region.step, opening?_of_ne_slash hslash hquote h, countNested, if_neg hopenParen,
    if_neg hcloseParen]

/-- Where no interpolation begins in a text, none does in the parts of it around a literal. -/
theorem not_infix_of_literal {quote : UInt8} {body text : Bytes}
    (h : ¬interpolationOpening <:+: quote :: (body ++ quote :: text)) :
    ¬interpolationOpening <:+: body ∧ ¬interpolationOpening <:+: text :=
  ⟨fun hbody => h (hbody.trans ⟨[quote], quote :: text, by simp⟩),
    fun htext => h (htext.trans ⟨quote :: (body ++ [quote]), [], by simp⟩)⟩

/-- An argument list passes over plain arguments. -/
theorem PlainArguments.passes {text : Bytes} (h : PlainArguments text)
    (hnone : ¬interpolationOpening <:+: text) (inWord : Bool) {rest : Bytes}
    (hrest : ∀ q ∈ rest.head?, Byte.isQuote q = false) :
    Passes [.arguments 0] [.arguments 0] inWord text rest := by
  -- on the length, since the mark of a raw literal is passed over together with the literal
  induction hlength : text.length using Nat.strong_induction_on generalizing text inWord with
  | _ length ih =>
    subst hlength
    cases h with
    | nil => exact .nil _ _ _
    | @literal quote body text hquote hnonempty hbody htext =>
      obtain ⟨hbodyNone, htextNone⟩ := not_infix_of_literal hnone
      exact passes_plainLiteral hquote hnonempty hbody hbodyNone
        (fun more hmore => passes_openingQuotes rfl hquote (fun _ => hmore) [] inWord)
        (ih text.length (by simp; omega) htext htextNone _ rfl)
    | @byte b text hb htext =>
      have htextNone : ¬interpolationOpening <:+: text :=
        fun hoccurs => hnone (hoccurs.trans ⟨[b], [], by simp⟩)
      have hpassed := ih text.length (by simp) htext htextNone (Byte.isWord b) rfl
      cases htext with
      | nil => exact passes_inert hb (fun _ _ => hrest) hpassed
      | byte hc _ =>
        refine passes_inert hb (fun _ _ => ?_) hpassed
        rintro q ⟨⟩
        exact (ne_of_isInert hc).1
      | @literal quote body text hquote hnonempty hbody htext =>
        by_cases hraw : b = Byte.letterR ∧ inWord = false
        · obtain ⟨rfl, rfl⟩ := hraw
          obtain ⟨hbodyNone, hrestNone⟩ := not_infix_of_literal htextNone
          exact passes_plainLiteral hquote hnonempty hbody hbodyNone
            (fun more hmore => passes_rawOpening rfl hquote (fun _ => hmore) [])
            (ih text.length (by simp; omega) htext hrestNone _ rfl)
        · exact passes_inert hb (fun hletter hword => absurd ⟨hletter, hword⟩ hraw) hpassed

end Source

end DebugSweep
