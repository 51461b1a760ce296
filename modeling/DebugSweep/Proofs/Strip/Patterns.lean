import DebugSweep.Proofs.Strip.Calls
import DebugSweep.Proofs.Strip.Matching
import DebugSweep.Proofs.Text.Encoding
import DebugSweep.Strip.Strategy

/-!
# Passes as patterns

A textual pass over the bytes of a text does what replacing its pattern in the text does. The blanks
that a match begins with hold no call, so the search for the next call is the same whether they
belong to the match or not, and they are kept in either case. Where the pattern does not match no
call begins, and nothing else is passed over.

The legacy strategy is therefore the replacement of the four patterns one after the other, of which
the first two count their matches.
-/

namespace DebugSweep.Strip

open Source Utf8

/-- The marker as text. -/
def markerText : List Char := "// Debug logging removed".toList

theorem encode_markerText : encode markerText = marker := by decide

/-- A text with the matches of a pattern replaced by the marker. -/
def replacePattern (items : List Item) (text : List Char) : Replaced :=
  replaceMatches items markerText 0 text

/-- The names of the calls as text. -/
def callTexts : List (List Char) := ["print".toList, "debugPrint".toList]

/-- The patterns whose matches are counted. -/
def countedPatterns : List (List Item) := callTexts.map (patternOf · .narrow)

/-- The patterns that are replaced afterwards. -/
def uncountedPatterns : List (List Item) := callTexts.map (patternOf · .broad)

/-- The text with all patterns replaced in order, and how many matches the counted ones had. -/
def replacePatterns (text : List Char) : Replaced :=
  let counted := countedPatterns.foldl
    (fun (done : Replaced) items =>
      let next := replacePattern items done.text
      { next with count := done.count + next.count })
    ⟨text, 0⟩
  { counted with
    text := uncountedPatterns.foldl (fun done items => (replacePattern items done).text)
      counted.text }

/-- A name that can be looked for in bytes: it is ASCII and does not begin with a blank. -/
structure Searchable (name : List Char) : Prop where
  isAscii : ∀ c ∈ name, IsAscii c
  not_isBlank : ∀ c ∈ (name ++ ['(']).head?, Text.isBlank c = false

/-- The pass that looks for a name. -/
def passOf (name : List Char) (reach : Reach) : Pass := ⟨encode name, reach⟩

theorem stop_eq (reach : Reach) : reach.stop = reach.delimiter.toUInt8 := by
  cases reach <;> rfl

theorem isAscii_delimiter (reach : Reach) : IsAscii reach.delimiter := by
  cases reach <;> decide

/-- The delimiter comes in a text where it comes in its bytes. -/
theorem stop_mem_encode_iff {reach : Reach} {text : List Char} :
    reach.stop ∈ encode text ↔ reach.delimiter ∈ text := by
  rw [stop_eq, mem_encode_iff (isAscii_delimiter reach)]

/-- The bytes of a call. -/
theorem encode_callText (name inner : List Char) (reach : Reach) :
    encode (callText name inner) = (passOf name reach).callOf (encode inner) := by
  have hopen : String.utf8EncodeChar '(' = [Byte.openParen] := by decide
  have hclose : String.utf8EncodeChar ')' = [Byte.closeParen] := by decide
  have hend : String.utf8EncodeChar ';' = [Byte.semicolon] := by decide
  simp [callText, Pass.callOf, passOf, hopen, hclose, hend]

/-- A call in the bytes of a text is a call in the text. -/
theorem Searchable.exists_callText {name : List Char} (h : Searchable name) {reach : Reach}
    {text : List Char} {inner rest : Bytes}
    (htext : encode text = (passOf name reach).callOf inner ++ rest) :
    ∃ arguments more, text = callText name arguments ++ more ∧ encode arguments = inner ∧
      encode more = rest := by
  have hopening : encode (name ++ ['(']) = encode name ++ [Byte.openParen] := encode_append _ _
  have hname : ∀ c ∈ name ++ ['('], IsAscii c := by
    simp only [List.forall_mem_append, List.forall_mem_singleton]
    exact ⟨h.isAscii, by decide⟩
  have hsplit : encode text = encode (name ++ ['(']) ++
      (inner ++ Byte.closeParen :: Byte.semicolon :: rest) := by
    rw [htext, hopening]
    simp [Pass.callOf, passOf]
  obtain ⟨after, rfl, hafter⟩ := exists_of_encode_eq_append hname hsplit
  have hparen : encode after = inner ++ (')' : Char).toUInt8 :: (Byte.semicolon :: rest) := hafter
  obtain ⟨arguments, following, rfl, harguments, hfollowing⟩ :=
    exists_of_encode_eq (by decide) hparen
  have hend : encode following = [] ++ (';' : Char).toUInt8 :: rest := hfollowing
  obtain ⟨none, more, rfl, hnone, hmore⟩ := exists_of_encode_eq (by decide) hend
  obtain rfl := encode_eq_nil_iff.mp hnone
  exact ⟨arguments, more, by simp [callText], harguments, hmore⟩

/-- Where the pattern of a pass does not match no call is taken. -/
theorem Searchable.callLength?_of_none {name : List Char} (h : Searchable name) {reach : Reach}
    {text : List Char} (hnone : matchItems? (patternOf name reach) text = none) :
    (passOf name reach).callLength? (encode text) = none := by
  cases hcall : (passOf name reach).callLength? (encode text) with
  | none => rfl
  | some n =>
    obtain ⟨inner, rest, htext, hinner, -⟩ := exists_of_callLength? hcall
    obtain ⟨arguments, more, rfl, rfl, -⟩ := h.exists_callText htext
    have harguments : reach.delimiter ∉ arguments :=
      fun hmem => hinner (stop_mem_encode_iff.mpr hmem)
    obtain ⟨lengths, hlengths⟩ :=
      exists_matchItems?_patternOf name (List.forall_mem_nil _) harguments more
    rw [List.nil_append, hnone] at hlengths
    cases hlengths

/-- A call begins with the byte of its first character. -/
theorem Searchable.exists_head {name : List Char} (h : Searchable name) :
    ∃ first, (name ++ ['(']).head? = some first ∧ IsAscii first ∧
      (encode name ++ [Byte.openParen]).head? = some first.toUInt8 := by
  cases name with
  | nil => exact ⟨'(', rfl, by decide, by decide⟩
  | cons c name =>
    have hc := h.isAscii c List.mem_cons_self
    exact ⟨c, rfl, hc, by rw [encode_cons, utf8EncodeChar_of_isAscii hc]; rfl⟩

/-- The bytes of other characters begin no call. -/
theorem Searchable.head?_ne {name : List Char} (h : Searchable name) {kept : List Char}
    (hkept : ∀ c ∈ kept, (name ++ ['(']).head? ≠ some c) :
    ∀ b ∈ encode kept, (encode name ++ [Byte.openParen]).head? ≠ some b := by
  obtain ⟨first, hfirst, hascii, hbyte⟩ := h.exists_head
  rintro b hb heq
  obtain rfl := Option.some.inj (hbyte.symm.trans heq)
  exact hkept first ((mem_encode_iff hascii).mp hb) hfirst

/-- Where the pattern of a pass does not match, the pass goes on behind the character. -/
theorem Searchable.callsFrom_of_none {name : List Char} (h : Searchable name) {reach : Reach}
    {c : Char} {text : List Char}
    (hnone : matchItems? (patternOf name reach) (c :: text) = none) (position : Nat) :
    (passOf name reach).callsFrom position 0 (encode (c :: text)) =
      (passOf name reach).callsFrom (position + (String.utf8EncodeChar c).length) 0
        (encode text) := by
  by_cases hc : IsAscii c
  · have hcall := h.callLength?_of_none hnone
    rw [encode_cons, utf8EncodeChar_of_isAscii hc, List.singleton_append] at hcall ⊢
    exact Strip.callsFrom_of_none hcall position
  · obtain ⟨first, hfirst, hascii, -⟩ := h.exists_head
    have hother : ∀ d ∈ [c], (name ++ ['(']).head? ≠ some d := by
      rw [List.forall_mem_singleton, hfirst]
      rintro ⟨⟩
      exact hc hascii
    have hkept := h.head?_ne hother
    rw [encode_cons, encode_nil, List.append_nil] at hkept
    exact callsFrom_append hkept position (encode text)

/-- A pass takes the call of a match, from its name on, and goes on behind it. -/
theorem Searchable.callsFrom_of_call {name : List Char} (h : Searchable name) {reach : Reach}
    {blanks inner : List Char} (hblanks : ∀ c ∈ blanks, Text.isBlank c = true)
    (hinner : reach.delimiter ∉ inner) (position : Nat) (rest : List Char) :
    (passOf name reach).callsFrom position 0 (encode (blanks ++ (callText name inner ++ rest))) =
      ⟨position + (encode blanks).length,
        position + (encode blanks).length + (encode (callText name inner)).length⟩ ::
        (passOf name reach).callsFrom
          (position + (encode blanks).length + (encode (callText name inner)).length) 0
          (encode rest) := by
  have hkept : ∀ b ∈ encode blanks, (encode name ++ [Byte.openParen]).head? ≠ some b := by
    refine h.head?_ne fun c hc heq => ?_
    have hblank := h.not_isBlank c heq
    rw [hblanks c hc] at hblank
    cases hblank
  have hstop : (passOf name reach).reach.stop ∉ encode inner :=
    fun hmem => hinner (stop_mem_encode_iff.mp hmem)
  rw [encode_append, encode_append, callsFrom_append hkept, encode_callText name inner reach,
    callsFrom_callOf hstop]

/-- A pass replaces in the bytes of a text what its pattern replaces in the text, and as often. -/
theorem Searchable.replaceFrom_callsFrom {name : List Char} (h : Searchable name) (reach : Reach)
    (position : Nat) (text : List Char) :
    replaceFrom position ((passOf name reach).callsFrom position 0 (encode text)) (encode text) =
        encode (replacePattern (patternOf name reach) text).text ∧
      ((passOf name reach).callsFrom position 0 (encode text)).length =
        (replacePattern (patternOf name reach) text).count := by
  induction hlength : text.length using Nat.strong_induction_on generalizing position text with
  | _ length ih =>
    subst hlength
    cases text with
    | nil => exact ⟨rfl, rfl⟩
    | cons c text =>
      cases hmatch : matchItems? (patternOf name reach) (c :: text) with
      | none =>
        obtain ⟨htext, hcount⟩ :=
          ih text.length (by simp) (position + (String.utf8EncodeChar c).length) text rfl
        rw [replacePattern, replaceMatches_of_none hmatch, h.callsFrom_of_none hmatch, encode_cons,
          encode_cons, replaceFrom_append fun span hspan => le_start_of_mem_callsFrom hspan, htext]
        exact ⟨rfl, hcount⟩
      | some lengths =>
        obtain ⟨blanks, inner, rest, others, hblanks, hinner, htext, rfl, hsum⟩ :=
          exists_of_matchItems?_patternOf hmatch
        have hcall : callText name inner ≠ [] := by simp [callText]
        have hshorter : rest.length < (c :: text).length := by
          have := List.length_pos_of_ne_nil hcall
          rw [htext, List.length_append, List.length_append]
          omega
        rw [htext] at hmatch ⊢
        obtain ⟨hrest, hcount⟩ := ih rest.length hshorter
          (position + (encode blanks).length + (encode (callText name inner)).length) rest rfl
        have hkept : ∀ span ∈ (passOf name reach).callsFrom position 0
            (encode (blanks ++ (callText name inner ++ rest))),
            position + (encode blanks).length ≤ span.start ∧ span.start ≤ span.stop := by
          rw [h.callsFrom_of_call hblanks hinner]
          refine List.forall_mem_cons.mpr ⟨⟨Nat.le_refl _, Nat.le_add_right _ _⟩, ?_⟩
          intro span hspan
          have := le_start_of_mem_callsFrom hspan
          omega
        have hreplaced := replaceFrom_append hkept (encode (callText name inner ++ rest))
        rw [← encode_append] at hreplaced
        rw [replacePattern, replaceMatches_of_some hcall hsum hmatch, hreplaced,
          h.callsFrom_of_call hblanks hinner]
        simp only [replaceFrom, Nat.sub_self, List.take_zero, List.nil_append,
          Nat.add_sub_cancel_left, encode_append, List.drop_left, hrest, encode_markerText,
          List.length_cons, hcount, replacePattern, and_self]

/-- What a pass does with the bytes of a text. -/
theorem Searchable.run_encode {name : List Char} (h : Searchable name) (reach : Reach)
    (text : List Char) :
    ((passOf name reach).run (encode text)).text =
        encode (replacePattern (patternOf name reach) text).text ∧
      ((passOf name reach).calls (encode text)).length =
        (replacePattern (patternOf name reach) text).count :=
  h.replaceFrom_callsFrom reach 0 text

theorem searchable_print : Searchable "print".toList where
  isAscii := isAscii_of_all (by decide)
  not_isBlank := by
    rintro c ⟨⟩
    decide

theorem searchable_debugPrint : Searchable "debugPrint".toList where
  isAscii := isAscii_of_all (by decide)
  not_isBlank := by
    rintro c ⟨⟩
    decide

/-- The passes are those of the patterns, in their order. -/
theorem passes_eq :
    passes = callTexts.map (passOf · .narrow) ++ callTexts.map (passOf · .broad) := by
  decide

/-- Each pass over the bytes of a text does what replacing its pattern in the text does, and takes
as many calls as the pattern has matches. The legacy strategy is the replacement of all four
patterns, and it counts the matches of the first two. -/
theorem strip_legacy_eq_replacePatterns :
    List.Forall₂
        (fun (pass : Pass) (items : List Item) => ∀ text : List Char,
          (pass.run (encode text)).text = encode (replacePattern items text).text ∧
            (pass.calls (encode text)).length = (replacePattern items text).count)
        passes (countedPatterns ++ uncountedPatterns) ∧
      ∀ text : List Char, strip .legacy (encode text) =
        ⟨encode (replacePatterns text).text, (replacePatterns text).count⟩ := by
  constructor
  · rw [passes_eq]
    exact .cons (searchable_print.run_encode .narrow) <|
      .cons (searchable_debugPrint.run_encode .narrow) <|
      .cons (searchable_print.run_encode .broad) <|
      .cons (searchable_debugPrint.run_encode .broad) .nil
  · intro text
    have hnarrow {name : List Char} (h : Searchable name) (text : List Char) :
        (passOf name .narrow).run (encode text) =
          ⟨encode (replacePattern (patternOf name .narrow) text).text,
            (replacePattern (patternOf name .narrow) text).count⟩ := by
      obtain ⟨htext, hcount⟩ := h.run_encode .narrow text
      exact congrArg₂ Stripped.mk htext hcount
    have hbroad {name : List Char} (h : Searchable name) (text : List Char) :
        (passOf name .broad).run (encode text) =
          ⟨encode (replacePattern (patternOf name .broad) text).text, 0⟩ :=
      congrArg₂ Stripped.mk (h.run_encode .broad text).1 rfl
    rw [strip, passes_eq]
    simp only [runPasses, callTexts, List.map_cons, List.map_nil, List.cons_append, List.nil_append,
      List.foldl_cons, List.foldl_nil, hnarrow searchable_print, hnarrow searchable_debugPrint,
      hbroad searchable_print, hbroad searchable_debugPrint, replacePatterns, countedPatterns,
      uncountedPatterns, Nat.zero_add, Nat.add_zero]

end DebugSweep.Strip
