import DebugSweep.Proofs.Source.Call

/-!
# How far a lexeme looks ahead

Where a lexeme ends depends on its own bytes and on the byte directly after it: a text in which
other bytes follow, but the same one first, has the same lexeme at its head. The byte after a lexeme
matters only for a line comment, an identifier, an empty literal, and bytes that could open a
comment or a raw literal; a block comment that has been closed, a blank and a byte after which a
statement can begin stand by themselves whatever follows.
-/

namespace DebugSweep.Source

/-- A prefix that is not empty and one byte more determine two bytes. -/
theorem take_two_append {text rest rest' : Bytes} (htext : text ≠ [])
    (hhead : rest.head? = rest'.head?) : (text ++ rest).take 2 = (text ++ rest').take 2 := by
  obtain ⟨b, tail, rfl⟩ := List.exists_cons_of_ne_nil htext
  cases tail with
  | nil =>
    cases rest with
    | nil =>
      cases rest' with
      | nil => rfl
      | cons c' tail' => cases hhead
    | cons c tail =>
      cases rest' with
      | nil => cases hhead
      | cons c' tail' =>
        cases hhead
        rfl
  | cons c tail => rfl

/-- A prefix and one byte more determine the first byte. -/
theorem head?_append_congr {rest rest' : Bytes} (text : Bytes) (hhead : rest.head? = rest'.head?) :
    (text ++ rest).head? = (text ++ rest').head? := by
  rw [List.head?_append, List.head?_append, hhead]

/-- Closing takes up at least one byte. -/
theorem closing?_pos {region : Region} {outer : List Region} {inWord : Bool} {text : Bytes}
    {n : Nat} (h : closing? (region :: outer) inWord text = some n) : 0 < n := by
  cases text with
  | nil => cases h
  | cons b rest =>
    have positive := Region.step_length_pos region outer inWord b rest
    cases hstep : region.step outer inWord b rest with
    | mk next length =>
      rw [hstep] at positive
      obtain ⟨m, -, rfl⟩ := exists_of_closing?_cons hstep h
      omega

/-- An opening is found whatever follows, as long as it is followed by the same byte. -/
theorem opening?_congr {inWord : Bool} {b : UInt8} {text rest rest' : Bytes} {region : Region}
    {length : Nat} (hhead : rest.head? = rest'.head?)
    (h : opening? inWord (b :: (text ++ rest)) = some (region, length))
    (hlength : length ≤ text.length) :
    opening? inWord (b :: (text ++ rest')) = some (region, length) := by
  have hnonempty : text ≠ [] := by
    rintro rfl
    have := opening?_length_pos h
    simp only [List.length_nil] at hlength
    omega
  have hliteral (raw : Bool) (quote : UInt8) {text : Bytes} (htext : text ≠ []) :
      literalOpening raw quote (text ++ rest') = literalOpening raw quote (text ++ rest) := by
    rw [literalOpening, literalOpening, take_two_append htext hhead]
  obtain ⟨q, tail, rfl⟩ := List.exists_cons_of_ne_nil hnonempty
  simp only [opening?] at h ⊢
  rw [head?_append_congr (q :: tail) hhead] at h
  split_ifs at h ⊢
  · exact h
  · exact h
  · rw [hliteral false b hnonempty]
    exact h
  · simp only [List.cons_append] at h ⊢
    split_ifs at h ⊢
    have htail : tail ≠ [] := by
      rintro rfl
      rw [Option.some.injEq, Prod.mk.injEq] at h
      have := literalOpening_length_pos true q rest
      have hshort := h.2
      simp only [List.nil_append] at hshort
      simp only [List.length_singleton] at hlength
      omega
    rw [hliteral true q htail]
    exact h

/-- Where nothing opens, nothing opens as long as the same byte follows. -/
theorem opening?_none_congr {inWord : Bool} {b : UInt8} {rest rest' : Bytes}
    (hhead : rest.head? = rest'.head?) (h : opening? inWord (b :: rest) = none) :
    opening? inWord (b :: rest') = none := by
  simp only [opening?] at h ⊢
  rw [hhead] at h
  split_ifs at h ⊢
  · rfl
  · cases rest' with
    | nil => rfl
    | cons q' tail' =>
      cases rest with
      | nil => cases hhead
      | cons q tail =>
        cases hhead
        simp only at h ⊢
        split_ifs at h ⊢
        rfl
  · rfl

/-- A short opening, and no opening, is found as long as the same byte follows. -/
theorem opening?_append_congr {inWord : Bool} {b : UInt8} {text rest rest' : Bytes}
    (hhead : rest.head? = rest'.head?)
    (hshort : ∀ region length, opening? inWord (b :: (text ++ rest)) = some (region, length) →
      length ≤ text.length) :
    opening? inWord (b :: (text ++ rest')) = opening? inWord (b :: (text ++ rest)) := by
  cases hopen : opening? inWord (b :: (text ++ rest)) with
  | none => exact opening?_none_congr (head?_append_congr text hhead) hopen
  | some opened => exact opening?_congr hhead hopen (hshort _ _ hopen)

/-- A step that ends before the text does, or closes the last region at its end, does not look
further than one byte behind the text. -/
theorem Region.step_congr {region : Region} {outer next : List Region} {inWord : Bool} {b : UInt8}
    {text rest rest' : Bytes} {length : Nat} (hhead : rest.head? = rest'.head?)
    (h : region.step outer inWord b (text ++ rest) = (next, length))
    (hlength : length < text.length + 1 ∨ (length = text.length + 1 ∧ next = [])) :
    region.step outer inWord b (text ++ rest') = (next, length) := by
  have hhead' := head?_append_congr text hhead
  -- what opens inside a region that reads code is short, since the region is still open behind it
  have hopening (hcode : ∀ inner size, opening? inWord (b :: (text ++ rest)) = some (inner, size) →
      region.step outer inWord b (text ++ rest) = (inner :: region :: outer, size)) :
      opening? inWord (b :: (text ++ rest')) = opening? inWord (b :: (text ++ rest)) := by
    refine opening?_append_congr hhead fun inner size hopen => ?_
    have hopened := (hcode inner size hopen).symm.trans h
    rw [Prod.mk.injEq] at hopened
    obtain ⟨rfl, rfl⟩ := hopened
    rcases hlength with hshort | ⟨-, hnil⟩
    · omega
    · cases hnil
  cases region with
  | arguments nested =>
    have hsame := hopening fun inner size hopen => by simp only [Region.step, hopen]
    simp only [Region.step, hsame] at h ⊢
    exact h
  | interpolation nested =>
    have hsame := hopening fun inner size hopen => by simp only [Region.step, hopen]
    simp only [Region.step, hsame] at h ⊢
    exact h
  | literal quote triple raw =>
    simp only [Region.step] at h ⊢
    rw [hhead'] at h
    by_cases htext : text = []
    · subst htext
      simp only [List.nil_append, List.length_nil, Nat.zero_add] at h hlength ⊢
      split_ifs at h ⊢ <;> cases h <;> first | rfl | simp_all
    · rw [take_two_append htext hhead] at h
      exact h
  | lineComment =>
    simp only [Region.step] at h ⊢
    rw [← hhead']
    exact h
  | blockComment nested =>
    simp only [Region.step] at h ⊢
    rw [← hhead']
    exact h

/-- Regions that close at the end of a prefix close there as long as the same byte follows. -/
theorem closing?_congr {regions : List Region} {inWord : Bool} {text rest rest' : Bytes}
    (hhead : rest.head? = rest'.head?)
    (h : closing? regions inWord (text ++ rest) = some text.length) :
    closing? regions inWord (text ++ rest') = some text.length := by
  induction hlength : text.length using Nat.strong_induction_on
    generalizing regions inWord text with
  | _ length ih =>
    subst hlength
    match regions, text with
    | [], text => rwa [closing?_no_regions] at h ⊢
    | region :: outer, [] => exact absurd (closing?_pos h) (Nat.lt_irrefl 0)
    | region :: outer, b :: tail =>
      have positive := Region.step_length_pos region outer inWord b (tail ++ rest)
      cases hstep : region.step outer inWord b (tail ++ rest) with
      | mk next length =>
        rw [hstep] at positive
        rw [List.cons_append] at h
        obtain ⟨m, hm, htotal⟩ := exists_of_closing?_cons hstep h
        rw [List.length_cons] at htotal
        have hstep' : region.step outer inWord b (tail ++ rest') = (next, length) := by
          refine Region.step_congr hhead hstep ?_
          cases next with
          | nil =>
            rw [closing?_no_regions, Option.some.injEq] at hm
            exact .inr ⟨by omega, rfl⟩
          | cons inner others =>
            have := closing?_pos hm
            omega
        rw [← List.cons_append,
          List.take_append_of_le_length (by rw [List.length_cons]; omega),
          List.drop_append_of_le_length (by rw [List.length_cons]; omega)] at hm
        have hshorter : ((b :: tail).drop length).length = m := by
          rw [List.length_drop, List.length_cons]
          omega
        rw [List.cons_append, closing?_cons hstep', ← List.cons_append,
          List.take_append_of_le_length (by rw [List.length_cons]; omega),
          List.drop_append_of_le_length (by rw [List.length_cons]; omega),
          ih _ (by rw [hshorter, List.length_cons]; omega) (hshorter.symm ▸ hm) rfl, hshorter,
          Option.map_some, htotal, List.length_cons]

/-- A comment or literal ends where it did as long as the same byte follows. -/
theorem triviaLength?_congr {inWord : Bool} {text rest rest' : Bytes}
    (hhead : rest.head? = rest'.head?)
    (h : triviaLength? inWord (text ++ rest) = some text.length) :
    triviaLength? inWord (text ++ rest') = some text.length := by
  cases rest with
  | nil => rwa [List.head?_eq_none_iff.mp hhead.symm]
  | cons c tail =>
    rw [triviaLength?_eq, Option.map_eq_some_iff] at h ⊢
    obtain ⟨⟨region, length⟩, hopen, hend⟩ := h
    -- more follows, so the comment or literal has been closed
    cases hclose : closing? [region] false ((text ++ c :: tail).drop length) with
    | none =>
      simp only [hclose, Option.elim, List.length_append, List.length_cons] at hend
      omega
    | some m =>
      simp only [hclose, Option.elim] at hend
      have hm := closing?_pos hclose
      cases text with
      | nil => simp only [List.length_nil] at hend; omega
      | cons b text =>
        have hopening : length ≤ text.length := by
          simp only [List.length_cons] at hend
          omega
        have hshorter : ((b :: text).drop length).length = m := by
          rw [List.length_drop]
          omega
        rw [List.drop_append_of_le_length (by rw [List.length_cons]; omega)] at hclose
        refine ⟨(region, length), opening?_congr hhead hopen hopening, ?_⟩
        simp only
        rw [List.drop_append_of_le_length (by rw [List.length_cons]; omega),
          closing?_congr hhead (hshorter.symm ▸ hclose), hshorter]
        exact hend

/-- Where no comment or literal opens, none does as long as the same byte follows. -/
theorem triviaLength?_none_congr {inWord : Bool} {b : UInt8} {text rest rest' : Bytes}
    (hhead : rest.head? = rest'.head?) (h : triviaLength? inWord (b :: (text ++ rest)) = none) :
    triviaLength? inWord (b :: (text ++ rest')) = none := by
  rw [triviaLength?_eq, Option.map_eq_none_iff] at h ⊢
  exact opening?_none_congr (head?_append_congr text hhead) h

/-- The lexeme at the head of a text stays there as long as the same byte follows it. -/
theorem Lexeme.Heads.congr {inWord : Bool} {lexeme : Lexeme} {rest rest' : Bytes}
    (h : lexeme.Heads inWord rest) (hhead : rest.head? = rest'.head?) :
    lexeme.Heads inWord rest' := by
  cases h with
  | comment hslash htrivia => exact .comment hslash (triviaLength?_congr hhead htrivia)
  | literal hslash htrivia => exact .literal hslash (triviaLength?_congr hhead htrivia)
  | word hstart hinside hend htrivia =>
    exact .word hstart hinside (hhead ▸ hend) (triviaLength?_none_congr hhead htrivia)
  | @byte b _ hstart htrivia =>
    exact .byte hstart (@triviaLength?_none_congr inWord b [] _ _ hhead htrivia)

/-- A blank and a byte after which a statement can begin are lexemes whatever follows them. -/
theorem Lexeme.heads_single {b : UInt8} (h : Byte.isBlank b = true ∨ Source.isBoundary b = true)
    (inWord : Bool) (rest : Bytes) : (single b).Heads inWord rest := by
  have hb : b ≠ Byte.slash ∧ Byte.isQuote b = false ∧ b ≠ Byte.letterR ∧
      Byte.isWordStart b = false := by
    simp only [Byte.isBlank, Source.isBoundary, Bool.or_eq_true, beq_iff_eq] at h
    rcases h with ((((rfl | rfl) | rfl) | rfl) | rfl) | (rfl | rfl) | rfl <;> decide
  obtain ⟨hslash, hquote, hletter, hstart⟩ := hb
  refine .byte hstart ?_
  cases htrivia : triviaLength? inWord (b :: rest) with
  | none => rfl
  | some n =>
    rcases opening_byte htrivia with rfl | hquote' | ⟨rfl, -⟩
    · exact absurd rfl hslash
    · rw [hquote] at hquote'; cases hquote'
    · exact absurd rfl hletter

/-- The only code with a newline in it is the newline. -/
theorem Lexeme.Heads.eq_newline {inWord : Bool} {lexeme : Lexeme} {rest : Bytes}
    (h : lexeme.Heads inWord rest) (hcode : lexeme.isCode = true)
    (hnewline : Byte.newline ∈ lexeme.text) : lexeme = .single Byte.newline := by
  cases h with
  | comment hslash htrivia => cases hcode
  | literal hslash htrivia => cases hcode
  | @word b text _ hstart hinside hend htrivia =>
    have hword : Byte.isWord Byte.newline = true := by
      rcases List.mem_cons.mp hnewline with hb | htext
      · rw [hb]
        exact Byte.isWord_of_isWordStart hstart
      · exact hinside _ htext
    exact absurd hword (by decide)
  | byte hstart htrivia =>
    rw [List.mem_singleton] at hnewline
    rw [hnewline]
    rfl

/-- A line comment that ends before the text does ends before a newline. -/
theorem closing?_lineComment {inWord : Bool} {text rest : Bytes}
    (h : closing? [.lineComment] inWord (text ++ rest) = some text.length) :
    rest.head? = some Byte.newline := by
  induction text generalizing inWord with
  | nil => exact absurd (closing?_pos h) (Nat.lt_irrefl 0)
  | cons b tail ih =>
    rw [List.cons_append] at h
    by_cases hnewline : (tail ++ rest).head? = some Byte.newline
    · have hstep : Region.lineComment.step [] inWord b (tail ++ rest) = ([], 1) := by
        simp only [Region.step, if_pos hnewline]
      rw [closing?_cons hstep, closing?_no_regions] at h
      cases tail with
      | nil => exact hnewline
      | cons c tail => simp at h
    · have hstep : Region.lineComment.step [] inWord b (tail ++ rest) = ([.lineComment], 1) := by
        simp only [Region.step, if_neg hnewline]
      obtain ⟨m, hm, htotal⟩ := exists_of_closing?_cons hstep h
      have hlength : m = tail.length := by rw [List.length_cons] at htotal; omega
      exact ih (hlength ▸ hm)

/-- A block comment goes on after one byte, or opens or closes a comment with two. -/
theorem Region.step_blockComment (nested : Nat) (inWord : Bool) (b : UInt8) (rest : Bytes) :
    (∃ next, (Region.blockComment nested).step [] inWord b rest = (next, 2) ∧
      (next = [] ∨ ∃ inner, next = [.blockComment inner])) ∨
    (Region.blockComment nested).step [] inWord b rest = ([.blockComment nested], 1) := by
  simp only [Region.step]
  split_ifs
  · exact .inl ⟨_, rfl, .inr ⟨_, rfl⟩⟩
  · cases nested with
    | zero => exact .inl ⟨_, rfl, .inl rfl⟩
    | succ nested => exact .inl ⟨_, rfl, .inr ⟨_, rfl⟩⟩
  · exact .inr rfl

/-- A block comment that has been closed stands by itself. -/
theorem closing?_blockComment {nested : Nat} {inWord : Bool} {text rest : Bytes}
    (h : closing? [.blockComment nested] inWord (text ++ rest) = some text.length)
    (rest' : Bytes) :
    closing? [.blockComment nested] inWord (text ++ rest') = some text.length := by
  induction hlength : text.length using Nat.strong_induction_on
    generalizing nested inWord text with
  | _ length ih =>
    subst hlength
    match text with
    | [] => exact absurd (closing?_pos h) (Nat.lt_irrefl 0)
    | [b] =>
      -- at its last byte a comment stays open or takes up one byte more
      rw [List.singleton_append] at h
      rcases Region.step_blockComment nested inWord b rest with ⟨next, hstep, -⟩ | hstep
      · obtain ⟨m, -, htotal⟩ := exists_of_closing?_cons hstep h
        simp only [List.length_singleton] at htotal
        omega
      · obtain ⟨m, hm, htotal⟩ := exists_of_closing?_cons hstep h
        have := closing?_pos hm
        simp only [List.length_singleton] at htotal
        omega
    | b :: c :: tail =>
      rw [List.cons_append, List.cons_append] at h ⊢
      rcases Region.step_blockComment nested inWord b (c :: (tail ++ rest)) with
        ⟨next, hstep, hnext⟩ | hstep
      · have hstep' : (Region.blockComment nested).step [] inWord b (c :: (tail ++ rest')) =
            (next, 2) := hstep
        obtain ⟨m, hm, htotal⟩ := exists_of_closing?_cons hstep h
        have hlength : m = tail.length := by simp only [List.length_cons] at htotal; omega
        subst hlength
        rw [closing?_cons hstep']
        rcases hnext with rfl | ⟨inner, rfl⟩
        · rw [closing?_no_regions] at hm ⊢
          rw [hm, Option.map_some, htotal]
        · have hnext := ih tail.length (by simp only [List.length_cons]; omega) hm rfl
          exact (congrArg _ hnext).trans (congrArg some htotal)
      · have hstep' : (Region.blockComment nested).step [] inWord b (c :: (tail ++ rest')) =
            ([.blockComment nested], 1) := hstep
        obtain ⟨m, hm, htotal⟩ := exists_of_closing?_cons hstep h
        have hlength : m = (c :: tail).length := by simp only [List.length_cons] at htotal ⊢; omega
        subst hlength
        rw [closing?_cons hstep']
        have hnext := ih (c :: tail).length (by simp only [List.length_cons]; omega) hm rfl
        exact (congrArg _ hnext).trans (congrArg some htotal)

/-- A line comment runs up to the newline of its line, or to the end of the text. -/
theorem closing?_lineComment_append {text : Bytes} (htext : Byte.newline ∉ text) (inWord : Bool)
    (b : UInt8) (rest : Bytes) :
    (rest.head? = some Byte.newline →
      closing? [.lineComment] inWord (b :: (text ++ rest)) = some (text.length + 1)) ∧
    (rest = [] → closing? [.lineComment] inWord (b :: (text ++ rest)) = none) := by
  induction text generalizing inWord b with
  | nil =>
    constructor
    · intro hrest
      have hstep : Region.lineComment.step [] inWord b rest = ([], 1) := by
        simp only [Region.step, if_pos hrest]
      rw [List.nil_append, closing?_cons hstep, closing?_no_regions]
      rfl
    · rintro rfl
      rfl
  | cons c text ih =>
    rw [List.mem_cons, not_or] at htext
    have hstep : Region.lineComment.step [] inWord b (c :: (text ++ rest)) =
        ([.lineComment], 1) := by
      simp only [Region.step, List.head?_cons, Option.some.injEq, if_neg (Ne.symm htext.1)]
    obtain ⟨hnewline, hend⟩ := ih htext.2 (Byte.isWord b) c
    rw [List.cons_append, closing?_cons hstep]
    constructor
    · intro hrest
      rw [List.length_cons, Nat.add_comm]
      exact congrArg _ (hnewline hrest)
    · intro hrest
      exact congrArg _ (hend hrest)

/-- Two slashes and what follows them on their line are a comment. -/
theorem Lexeme.heads_lineComment {text rest : Bytes} (htext : Byte.newline ∉ text)
    (hrest : rest = [] ∨ rest.head? = some Byte.newline) (inWord : Bool) :
    Lexeme.Heads inWord ⟨.comment, Byte.slash :: Byte.slash :: text⟩ rest := by
  refine .comment rfl ?_
  obtain ⟨hnewline, hend⟩ := closing?_lineComment_append htext false Byte.slash rest
  have hopen : opening? inWord (Byte.slash :: (Byte.slash :: (text ++ rest))) =
      some (.lineComment, 1) := rfl
  rw [List.cons_append, List.cons_append, triviaLength?_eq, hopen, Option.map_some]
  simp only [List.drop_succ_cons, List.drop_zero]
  rcases hrest with rfl | hrest
  · rw [hend rfl]
    simp
  · rw [hnewline hrest]
    simp only [Option.elim, List.length_cons, Option.some.injEq]
    omega

/-- A comment that is followed on its line is a block comment that has been closed. -/
theorem exists_blockComment {inWord : Bool} {text rest : Bytes} {b : UInt8}
    (h : triviaLength? inWord (Byte.slash :: text ++ b :: rest) = some (text.length + 1))
    (hb : b ≠ Byte.newline) :
    ∃ tail, text = Byte.star :: tail ∧
      closing? [.blockComment 0] false (tail ++ b :: rest) = some tail.length := by
  rw [triviaLength?_eq, Option.map_eq_some_iff] at h
  obtain ⟨⟨region, length⟩, hopen, hend⟩ := h
  cases hclose : closing? [region] false ((Byte.slash :: text ++ b :: rest).drop length) with
  | none =>
    simp only [hclose, Option.elim, List.length_append, List.length_cons] at hend
    omega
  | some m =>
    simp only [hclose, Option.elim] at hend
    have hm := closing?_pos hclose
    rw [List.cons_append] at hopen
    rcases opening?_cases hopen with ⟨-, ⟨-, rfl, rfl⟩ | ⟨hblock, rfl, rfl⟩⟩ | ⟨hquote, -⟩ |
      ⟨hletter, -⟩
    · have hlength : m = text.length := by omega
      have hnewline : (b :: rest).head? = some Byte.newline :=
        closing?_lineComment (hlength ▸ hclose)
      exact absurd (Option.some.inj hnewline) hb
    · cases text with
      | nil =>
        simp only [List.length_nil] at hend
        omega
      | cons c tail =>
        cases hblock
        have hlength : m = tail.length := by simp only [List.length_cons] at hend; omega
        exact ⟨tail, rfl, hlength ▸ hclose⟩
    · cases hquote
    · exact absurd hletter (by decide)

/-- A comment that is followed on its line stands by itself. -/
theorem triviaLength?_comment {inWord : Bool} {text rest : Bytes} {b : UInt8}
    (h : triviaLength? inWord (Byte.slash :: text ++ b :: rest) = some (text.length + 1))
    (hb : b ≠ Byte.newline) (rest' : Bytes) :
    triviaLength? inWord (Byte.slash :: text ++ rest') = some (text.length + 1) := by
  obtain ⟨tail, rfl, hclose⟩ := exists_blockComment h hb
  have hopen : opening? inWord (Byte.slash :: Byte.star :: tail ++ rest') =
      some (.blockComment 0, 2) := rfl
  rw [triviaLength?_eq, hopen, Option.map_some]
  change some ((closing? [.blockComment 0] false (tail ++ rest')).elim _ (2 + ·)) = _
  rw [closing?_blockComment hclose rest', Option.elim, List.length_cons, Nat.add_comm]

/-- A block comment that has been closed ends with a slash. -/
theorem getLast?_blockComment {nested : Nat} {inWord : Bool} {text rest : Bytes}
    (h : closing? [.blockComment nested] inWord (text ++ rest) = some text.length) :
    text.getLast? = some Byte.slash := by
  induction hlength : text.length using Nat.strong_induction_on
    generalizing nested inWord text with
  | _ length ih =>
    subst hlength
    cases text with
    | nil => exact absurd (closing?_pos h) (Nat.lt_irrefl 0)
    | cons b tail =>
      rw [List.cons_append] at h
      -- a comment that is still open after a step ends behind it
      have hstill (inner : Nat) {length : Nat} (hpos : 0 < length)
          (hstep : (Region.blockComment nested).step [] inWord b (tail ++ rest) =
            ([.blockComment inner], length)) : (b :: tail).getLast? = some Byte.slash := by
        obtain ⟨m, hm, htotal⟩ := exists_of_closing?_cons hstep h
        have hleft := closing?_pos hm
        have hshorter : ((b :: tail).drop length).length = m := by
          rw [List.length_drop]
          omega
        rw [← List.cons_append, List.drop_append_of_le_length (by omega), ← hshorter] at hm
        have hlast := ih _ (by omega) hm rfl
        rw [List.getLast?_drop, if_neg (by omega)] at hlast
        exact hlast
      by_cases hopen : b = Byte.slash ∧ (tail ++ rest).head? = some Byte.star
      · exact hstill (nested + 1) Nat.two_pos (by simp only [Region.step, if_pos hopen])
      · by_cases hclose : b = Byte.star ∧ (tail ++ rest).head? = some Byte.slash
        · cases nested with
          | zero =>
            have hstep : (Region.blockComment 0).step [] inWord b (tail ++ rest) = ([], 2) := by
              simp only [Region.step, if_neg hopen, if_pos hclose]
            obtain ⟨m, hm, htotal⟩ := exists_of_closing?_cons hstep h
            rw [closing?_no_regions, Option.some.injEq] at hm
            rw [List.length_cons] at htotal
            obtain ⟨c, rfl⟩ := List.length_eq_one_iff.mp (by omega : tail.length = 1)
            exact hclose.2
          | succ nested =>
            exact hstill nested Nat.two_pos (by
              simp only [Region.step, if_neg hopen, if_pos hclose])
        · exact hstill nested Nat.one_pos (by
            simp only [Region.step, if_neg hopen, if_neg hclose])

/-- Where a statement can begin behind a lexeme that is no comment, the lexeme is a blank or a byte
after which a statement can begin. -/
theorem Lexeme.Heads.exists_single {inWord : Bool} {lexeme : Lexeme} {rest : Bytes}
    (h : lexeme.Heads inWord rest) (hcomment : lexeme.kind ≠ .comment) {before : List Lexeme}
    (hstart : canBeginAfter (lexeme :: before) = true) :
    ∃ b, lexeme = .single b ∧ (Byte.isBlank b = true ∨ Source.isBoundary b = true) := by
  cases h with
  | comment hslash htrivia => exact absurd rfl hcomment
  | literal hslash htrivia =>
    rw [canBeginAfter_of_kind (by simp) (by simp)] at hstart
    cases hstart
  | word hword hinside hend htrivia =>
    rw [canBeginAfter_of_kind (by simp) (by simp)] at hstart
    cases hstart
  | @byte b _ hword htrivia =>
    refine ⟨b, rfl, ?_⟩
    have hsingle := canBeginAfter_single b before
    rw [single, hstart] at hsingle
    cases hblank : Byte.isBlank b with
    | true => exact .inl rfl
    | false =>
      rw [hblank] at hsingle
      exact .inr hsingle.symm

/-- A lexeme after which an identifier begins a statement stands by itself. -/
theorem Lexeme.Heads.of_canBeginAfter {inWord : Bool} {lexeme : Lexeme} {before : List Lexeme}
    {b : UInt8} {rest : Bytes} (h : lexeme.Heads inWord (b :: rest))
    (hstart : canBeginAfter (lexeme :: before) = true) (hb : Byte.isWord b = true)
    (rest' : Bytes) : lexeme.Heads inWord rest' := by
  by_cases hkind : lexeme.kind = .comment
  · cases h with
    | @comment text _ hslash htrivia =>
      have hnewline : b ≠ Byte.newline := by rintro rfl; exact absurd hb (by decide)
      obtain ⟨c, tail, rfl⟩ :=
        List.exists_cons_of_ne_nil (Heads.text_ne_nil (.comment hslash htrivia))
      cases hslash
      exact .comment rfl (triviaLength?_comment htrivia hnewline rest')
    | literal hslash htrivia => cases hkind
    | word hword hinside hend htrivia => cases hkind
    | byte hword htrivia => cases hkind
  · obtain ⟨c, rfl, hc⟩ := h.exists_single hkind hstart
    exact heads_single hc inWord rest'

end DebugSweep.Source
