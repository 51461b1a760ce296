import DebugSweep.Proofs.Strip.Offsets

/-!
# What stripping does to the code that is kept

The marker ends with its line, so what is kept after a statement on the same line becomes part of a
comment. `keepsCode_iff` says exactly when this does harm: every byte that is code, unless it is a
blank, stays code, and every byte of a comment or a literal stays outside the code, if and only if
nothing but blanks, comments and literals is kept after a statement on its line, and the line does
not end inside one of them.

No other byte is in danger. In particular a comment or a literal that a line ends in is what makes
the rest of a text to be read differently, and it has to stand on the line of a statement.
-/

namespace DebugSweep.Strip

open Source

/-- Stripping keeps every byte of the code, blanks aside, as code and every byte of a comment or a
literal outside the code. -/
def KeepsCode (text : Bytes) : Prop :=
  ∀ offset b code, Outside (findStatements text) offset → text[offset]? = some b →
    (codeMask text)[offset]? = some code → (code = false ∨ Byte.isBlank b = false) →
    (strip .scan text).text[shiftedOffset (findStatements text) offset]? = some b ∧
      (codeMask (strip .scan text).text)[shiftedOffset (findStatements text) offset]? = some code

/-- A kept byte that matters is told from the code by `mask` as it was before. -/
def Faithful (mask : List Bool) (b : UInt8) (code : Bool) (offset : Nat) : Prop :=
  (code = false ∨ Byte.isBlank b = false) → mask[offset]? = some code

/-- A byte that may become part of a comment: no code but a blank, and no newline outside the
code. -/
def Harmless (b : UInt8) (code : Bool) : Prop :=
  (code = true → Byte.isBlank b = true) ∧ (b = Byte.newline → code = true)

/-- Kept bytes stand at their shifted offsets. -/
theorem forallKept_strippedOf (before : Bytes) (segments : List Segment) :
    ForallKept (fun b _ offset => (before ++ strippedOf segments)[offset]? = some b) before.length
      segments := by
  induction segments generalizing before with
  | nil => trivial
  | cons segment rest ih =>
    rcases segment with lexeme | body
    · constructor
      · intro i b hbyte
        obtain ⟨hi, -⟩ := List.getElem?_eq_some_iff.mp hbyte
        rw [getElem?_append_add rfl, strippedOf_kept, List.getElem?_append_left hi, hbyte]
      · have := ih (before ++ lexeme.text)
        rwa [List.length_append, List.append_assoc] at this
    · have := ih (before ++ marker)
      rwa [List.length_append, List.append_assoc] at this

/-- The open comment is part of the first lexeme. -/
theorem exists_relexed_some (text : Bytes) (segments : List Segment) :
    ∃ more rest, relexed (some text) segments = ⟨.comment, text ++ more⟩ :: rest := by
  induction segments generalizing text with
  | nil => exact ⟨[], [], by rw [List.append_nil]; rfl⟩
  | cons segment rest ih =>
    rcases segment with lexeme | body
    · by_cases hnewline : Byte.newline ∈ lexeme.text
      · exact ⟨_, _, by rw [relexed, if_pos hnewline]⟩
      · obtain ⟨more, tail, htail⟩ := ih (text ++ lexeme.text)
        refine ⟨lexeme.text ++ more, tail, ?_⟩
        rw [relexed, if_neg hnewline, htail, List.append_assoc]
    · obtain ⟨more, tail, htail⟩ := ih (text ++ marker)
      exact ⟨marker ++ more, tail, by rw [← List.append_assoc, ← htail]; rfl⟩

/-- Within the open comment nothing is code. -/
theorem getElem?_codeMaskOf_relexed {text : Bytes} {i : Nat} (h : i < text.length)
    (segments : List Segment) : (codeMaskOf (relexed (some text) segments))[i]? = some false := by
  obtain ⟨more, rest, hrelexed⟩ := exists_relexed_some text segments
  have hi : i < (text ++ more).length := by
    rw [List.length_append]
    omega
  rw [hrelexed, codeMaskOf_cons, List.getElem?_append_left (by simpa using hi),
    List.getElem?_replicate_of_lt hi]
  rfl

/-- On a line that has become a comment exactly what is harmless stays faithful. -/
theorem forall_faithful_iff {mask : List Bool} {start : Nat} {text : Bytes} {code : Bool}
    (hnewline : Byte.newline ∉ text) (hmask : ∀ i < text.length, mask[start + i]? = some false) :
    (∀ i b, text[i]? = some b → Faithful mask b code (start + i)) ↔
      (true = true → ∀ i b, text[i]? = some b → Byte.newline ∉ text.take i → Harmless b code) := by
  constructor
  · intro h _ i b hbyte _
    obtain ⟨hi, hb⟩ := List.getElem?_eq_some_iff.mp hbyte
    have hfaithful := h i b hbyte
    rw [Faithful, hmask i hi, Option.some.injEq] at hfaithful
    constructor
    · rintro rfl
      cases hblank : Byte.isBlank b with
      | true => rfl
      | false => exact absurd (hfaithful (.inr hblank)) Bool.false_ne_true
    · rintro rfl
      exact absurd (hb ▸ List.getElem_mem hi) hnewline
  · intro h i b hbyte hmatters
    obtain ⟨hi, -⟩ := List.getElem?_eq_some_iff.mp hbyte
    obtain ⟨hblank, -⟩ := h rfl i b hbyte fun hmem => hnewline (List.mem_of_mem_take hmem)
    rw [hmask i hi, Option.some.injEq]
    rcases hmatters with hcode | hvisible
    · exact hcode.symm
    · cases code with
      | false => rfl
      | true => exact absurd (hblank rfl) (by rw [hvisible]; exact Bool.false_ne_true)

section Newline

variable {inWord : Bool} {lexeme : Lexeme} {behind : Bytes} (hhead : lexeme.Heads inWord behind)
  (hnewline : Byte.newline ∈ lexeme.text) (hsingle : lexeme ≠ .single Byte.newline)

include hhead hnewline hsingle

/-- A newline that is not a lexeme of its own stands in a comment or a literal. -/
theorem isCode_of_newline : lexeme.isCode = false := by
  rw [← Bool.not_eq_true]
  intro hcode
  exact hsingle (hhead.eq_newline hcode hnewline)

/-- The newline of a comment or a literal in which the line of a statement ends becomes code. -/
theorem not_forallKept_of_newline (before : List Bool) (text : Bytes) (rest : List Segment) :
    ¬ ForallKept (Faithful (before ++ codeMaskOf (relexed (some text) (.kept lexeme :: rest))))
        (before.length + text.length) (.kept lexeme :: rest) := by
  intro hfaithful
  obtain ⟨-, hbyte⟩ := getElem?_cut hnewline
  have hcode := isCode_of_newline hhead hnewline hsingle
  have hmask := hfaithful.1 _ _ hbyte (.inl hcode)
  obtain ⟨next, hnext⟩ := exists_relexed_newline text hnewline rest
  have hcomment : (List.replicate (text ++ lexeme.text.takeWhile
      (· != Byte.newline)).length false).length =
      text.length + (lexeme.text.takeWhile (· != Byte.newline)).length := by
    rw [List.length_replicate, List.length_append]
  have htrue := getElem?_append_add hcomment (true :: codeMaskOf next) 0
  rw [hnext, hcode, Nat.add_assoc, getElem?_append_add rfl, codeMaskOf_cons] at hmask
  cases hmask.symm.trans htrue

/-- A line that ends inside a comment or a literal is not harmless. -/
theorem not_lineKept_of_newline (rest : List Segment) :
    ¬ LineKept Harmless true (.kept lexeme :: rest) := by
  intro hharmless
  obtain ⟨hline, hbyte⟩ := getElem?_cut hnewline
  have hcode := (hharmless.1 rfl _ _ hbyte hline).2 rfl
  exact hsingle (hhead.eq_newline hcode hnewline)

end Newline

/-- Over segments: what is kept stays faithful if and only if what is kept after a statement on its
line is harmless, at a place where no comment is open and where one is. -/
theorem forallKept_faithful {segments : List Segment} {inWord : Bool}
    (h : Lexed inWord (lexemesOf segments)) :
    (∀ before : List Bool,
      ForallKept (Faithful (before ++ codeMaskOf (relexed none segments))) before.length segments ↔
        LineKept Harmless false segments) ∧
    ∀ (before : List Bool) (text : Bytes),
      ForallKept (Faithful (before ++ codeMaskOf (relexed (some text) segments)))
          (before.length + text.length) segments ↔
        LineKept Harmless true segments := by
  induction segments generalizing inWord with
  | nil => exact ⟨fun _ => Iff.rfl, fun _ _ => Iff.rfl⟩
  | cons segment rest ih =>
    rcases segment with lexeme | body
    · obtain ⟨hhead, hrest⟩ := h.head_tail
      obtain ⟨hsync, hopen⟩ := ih hrest
      constructor
      · intro before
        have := hsync (before ++ List.replicate lexeme.text.length lexeme.isCode)
        rw [List.length_append, List.length_replicate, List.append_assoc] at this
        rw [relexed, codeMaskOf_cons]
        refine and_congr (iff_of_true ?_ ?_) this
        · intro i b hbyte _
          obtain ⟨hi, -⟩ := List.getElem?_eq_some_iff.mp hbyte
          rw [getElem?_append_add rfl, List.getElem?_append_left (by simpa using hi),
            List.getElem?_replicate_of_lt hi]
        · intro hfalse
          cases hfalse
      · intro before text
        by_cases hnewline : Byte.newline ∈ lexeme.text
        · by_cases hsingle : lexeme = .single Byte.newline
          · subst hsingle
            have := hsync (before ++ List.replicate text.length false ++ [true])
            rw [List.length_append, List.length_append, List.length_replicate, List.append_assoc,
              List.append_assoc] at this
            rw [relexed_newline]
            refine and_congr (iff_of_true ?_ ?_) this
            · rintro i b hbyte (hcode | hblank)
              · cases hcode
              · rw [List.mem_singleton.mp (List.mem_of_getElem? hbyte)] at hblank
                cases hblank
            · intro _ i b hbyte _
              rw [List.mem_singleton.mp (List.mem_of_getElem? hbyte)]
              exact ⟨fun _ => rfl, fun _ => rfl⟩
          · exact iff_of_false (not_forallKept_of_newline hhead hnewline hsingle before text rest)
              (not_lineKept_of_newline hhead hnewline hsingle rest)
        · have := hopen before (text ++ lexeme.text)
          rw [List.length_append, ← Nat.add_assoc] at this
          rw [relexed, if_neg hnewline, ForallKept, LineKept, this,
            Bool.not_eq_true' _ |>.mpr (by simpa using hnewline), Bool.true_and]
          refine and_congr (forall_faithful_iff hnewline fun i hi => ?_) Iff.rfl
          rw [Nat.add_assoc, getElem?_append_add rfl]
          exact getElem?_codeMaskOf_relexed (by rw [List.length_append]; omega) rest
    · obtain ⟨-, hopen⟩ := ih h.of_append
      constructor
      · intro before
        exact hopen before marker
      · intro before text
        have := hopen before (text ++ marker)
        rwa [List.length_append, ← Nat.add_assoc] at this

/-- Stripping keeps the code of a text if and only if no code but blanks is kept after a statement
on its line and the line does not end inside a comment or a literal. -/
theorem keepsCode_iff (text : Bytes) :
    KeepsCode text ↔ ∀ offset b code, Outside (findStatements text) offset →
      text[offset]? = some b → (codeMask text)[offset]? = some code →
      Trails (findStatements text) text offset → Harmless b code := by
  obtain ⟨segments, hlexemes, -, hfind, hstripped, hrelexed⟩ := exists_stripped text
  have hbytes := (forallKept_text hlexemes hfind _).mp (forallKept_strippedOf [] segments)
  have hmask : ForallKept (Faithful (codeMask (strip .scan text).text)) 0 segments ↔
      LineKept Harmless false segments := by
    have hlexed : Lexed false (lexemesOf segments) := hlexemes ▸ lexed_lexemes text
    rw [codeMask, hrelexed]
    exact (forallKept_faithful hlexed).1 []
  rw [← lineKept_text hlexemes hfind, ← hmask, forallKept_text hlexemes hfind]
  constructor
  · intro h offset b code houtside hbyte hcode hmatters
    exact (h offset b code houtside hbyte hcode hmatters).2
  · intro h offset b code houtside hbyte hcode hmatters
    constructor
    · rw [hstripped]
      exact hbytes offset b code houtside hbyte hcode
    · exact h offset b code houtside hbyte hcode hmatters

/-- What follows a statement on its line is lost: after stripping, the brace stands in a comment. -/
theorem not_keepsCode_braces : ¬ KeepsCode (ascii "\x7b print(1); \x7d") := by
  intro h
  have houtside : Outside (findStatements (ascii "\x7b print(1); \x7d")) 12 := by
    intro span hspan
    have hfind : findStatements (ascii "\x7b print(1); \x7d") = [⟨2, 11⟩] := by rfl
    rw [hfind, List.mem_singleton] at hspan
    subst hspan
    exact .inr (by decide)
  have hcode := (h 12 Byte.closeBrace true houtside (by rfl) (by rfl) (.inr rfl)).2
  have hmask : (codeMask (strip .scan (ascii "\x7b print(1); \x7d")).text)[
      shiftedOffset (findStatements (ascii "\x7b print(1); \x7d")) 12]? = some false := by rfl
  cases hmask.symm.trans hcode

end DebugSweep.Strip
