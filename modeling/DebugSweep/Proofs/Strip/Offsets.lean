import DebugSweep.Proofs.Strip.Relexing

/-!
# Kept bytes by their offsets

Two notions about the bytes that stripping keeps are stated by offsets into the text: where a byte
stands after the statements before it have been replaced (`shiftedOffset`), and whether it stands
after a statement on the statement's line (`Trails`). `ForallKept` and `LineKept` say the same over
segments, where they can be proved by induction: `KeptAt` splits at the first segment, and so does
whatever is said of every kept byte.
-/

namespace DebugSweep.Source

/-- For every byte of the lexemes, whether it is code. -/
def codeMaskOf (lexemes : List Lexeme) : List Bool :=
  lexemes.flatMap fun lexeme => List.replicate lexeme.text.length lexeme.isCode

@[simp] theorem codeMaskOf_cons (lexeme : Lexeme) (rest : List Lexeme) :
    codeMaskOf (lexeme :: rest) =
      List.replicate lexeme.text.length lexeme.isCode ++ codeMaskOf rest := rfl

@[simp] theorem codeMaskOf_append (first second : List Lexeme) :
    codeMaskOf (first ++ second) = codeMaskOf first ++ codeMaskOf second := List.flatMap_append

/-- There is an entry for every byte. -/
@[simp] theorem length_codeMaskOf (lexemes : List Lexeme) :
    (codeMaskOf lexemes).length = (textOf lexemes).length := by
  induction lexemes with
  | nil => rfl
  | cons lexeme rest ih => simp [ih]

end DebugSweep.Source

namespace DebugSweep.Strip

open Source

/-- The offset lies in none of the ranges. -/
def Outside (spans : List Span) (offset : Nat) : Prop :=
  ∀ span ∈ spans, offset < span.start ∨ span.stop ≤ offset

/-- From the end of a range up to the offset no newline is kept: the offset stands after the range
on the line on which the range ends. The newline that ends the line counts as part of it. -/
def Trails (spans : List Span) (text : Bytes) (offset : Nat) : Prop :=
  ∃ span ∈ spans, span.stop ≤ offset ∧
    ∀ i, span.stop ≤ i → i < offset → Outside spans i → text[i]? ≠ some Byte.newline

/-- How far behind the beginning a kept offset stands after the ranges have been replaced, in a text
that begins at offset `position`. -/
def shiftedFrom (position : Nat) (spans : List Span) (offset : Nat) : Nat :=
  match spans with
  | [] => offset - position
  | span :: spans =>
    if offset < span.start then offset - position
    else (span.start - position) + (marker.length + shiftedFrom span.stop spans offset)

/-- Where a kept byte stands after the ranges have been replaced. -/
def shiftedOffset (spans : List Span) (offset : Nat) : Nat := shiftedFrom 0 spans offset

/-- The byte at index `i` of the segments' text is kept, and `code` says whether it is code. -/
def KeptAt (position : Nat) (segments : List Segment) (i : Nat) (b : UInt8) (code : Bool) : Prop :=
  Outside (spansOf position segments) (position + i) ∧
    (textOf (lexemesOf segments))[i]? = some b ∧
    (codeMaskOf (lexemesOf segments))[i]? = some code

/-- Every kept byte satisfies `p` together with whether it is code and its offset after stripping,
where the segments begin at offset `start` after stripping. -/
def ForallKept (p : UInt8 → Bool → Nat → Prop) (start : Nat) : List Segment → Prop
  | [] => True
  | .kept lexeme :: rest =>
    (∀ i b, lexeme.text[i]? = some b → p b lexeme.isCode (start + i)) ∧
      ForallKept p (start + lexeme.text.length) rest
  | .statement _ :: rest => ForallKept p (start + marker.length) rest

/-- Every byte that is kept after a statement on its line satisfies `p` together with whether it is
code, where `trailing` says that the segments begin on the line of a statement. -/
def LineKept (p : UInt8 → Bool → Prop) (trailing : Bool) : List Segment → Prop
  | [] => True
  | .kept lexeme :: rest =>
    (trailing = true → ∀ i b, lexeme.text[i]? = some b → Byte.newline ∉ lexeme.text.take i →
      p b lexeme.isCode) ∧
      LineKept p (trailing && !lexeme.text.contains Byte.newline) rest
  | .statement _ :: rest => LineKept p true rest

/-- What stands behind a prefix. -/
theorem getElem?_append_add {α : Type*} {first : List α} {n : Nat} (h : first.length = n)
    (second : List α) (i : Nat) : (first ++ second)[n + i]? = second[i]? := by
  rw [← h, List.getElem?_append_right (Nat.le_add_right _ _), Nat.add_sub_cancel_left]

section KeptAt

variable {position i : Nat} {lexeme : Lexeme} {body : List Lexeme} {rest : List Segment} {b : UInt8}
  {code : Bool}

/-- The bytes of a kept lexeme are kept. -/
theorem keptAt_kept (h : i < lexeme.text.length) :
    KeptAt position (.kept lexeme :: rest) i b code ↔
      lexeme.text[i]? = some b ∧ lexeme.isCode = code := by
  have houtside : Outside (spansOf position (.kept lexeme :: rest)) (position + i) := by
    intro span hspan
    rw [spansOf] at hspan
    have := le_start_of_mem_spansOf hspan
    omega
  rw [KeptAt, and_iff_right houtside, lexemesOf_kept, textOf_cons, codeMaskOf_cons,
    List.getElem?_append_left h, List.getElem?_append_left (by simpa using h),
    List.getElem?_replicate_of_lt h, Option.some.injEq]

/-- Behind a kept lexeme the bytes are those of the segments that follow. -/
theorem keptAt_kept_add :
    KeptAt position (.kept lexeme :: rest) (lexeme.text.length + i) b code ↔
      KeptAt (position + lexeme.text.length) rest i b code := by
  rw [KeptAt, KeptAt, spansOf, lexemesOf_kept, textOf_cons, codeMaskOf_cons,
    getElem?_append_add rfl, getElem?_append_add List.length_replicate, Nat.add_assoc]

/-- The bytes of a statement are not kept. -/
theorem not_keptAt_statement (h : i < (textOf body).length) :
    ¬ KeptAt position (.statement body :: rest) i b code := by
  rintro ⟨houtside, -⟩
  have := houtside _ List.mem_cons_self
  simp only at this
  omega

/-- Behind a statement the bytes are those of the segments that follow. -/
theorem keptAt_statement_add :
    KeptAt position (.statement body :: rest) ((textOf body).length + i) b code ↔
      KeptAt (position + (textOf body).length) rest i b code := by
  have houtside : Outside (spansOf position (.statement body :: rest))
        (position + ((textOf body).length + i)) ↔
      Outside (spansOf (position + (textOf body).length) rest)
        (position + (textOf body).length + i) := by
    rw [← Nat.add_assoc]
    refine List.forall_mem_cons.trans (and_iff_right (.inr ?_))
    exact Nat.le_add_right _ _
  rw [KeptAt, KeptAt, houtside, lexemesOf_statement, textOf_append, codeMaskOf_append,
    getElem?_append_add rfl, getElem?_append_add (length_codeMaskOf body)]

/-- What holds of every kept byte holds of the first lexeme and behind it. -/
theorem forall_keptAt_kept (p : Nat → UInt8 → Bool → Prop) :
    (∀ i b code, KeptAt position (.kept lexeme :: rest) i b code → p i b code) ↔
      (∀ i b, lexeme.text[i]? = some b → p i b lexeme.isCode) ∧
        ∀ i b code, KeptAt (position + lexeme.text.length) rest i b code →
          p (lexeme.text.length + i) b code := by
  constructor
  · intro h
    constructor
    · intro i b hbyte
      obtain ⟨hi, -⟩ := List.getElem?_eq_some_iff.mp hbyte
      exact h i b _ ((keptAt_kept hi).mpr ⟨hbyte, rfl⟩)
    · intro i b code hkept
      exact h _ b code (keptAt_kept_add.mpr hkept)
  · rintro ⟨hhere, hrest⟩ i b code hkept
    rcases Nat.lt_or_ge i lexeme.text.length with hi | hi
    · obtain ⟨hbyte, rfl⟩ := (keptAt_kept hi).mp hkept
      exact hhere i b hbyte
    · obtain ⟨i, rfl⟩ := Nat.exists_eq_add_of_le hi
      exact hrest i b code (keptAt_kept_add.mp hkept)

/-- What holds of every kept byte holds behind the statement. -/
theorem forall_keptAt_statement (p : Nat → UInt8 → Bool → Prop) :
    (∀ i b code, KeptAt position (.statement body :: rest) i b code → p i b code) ↔
      ∀ i b code, KeptAt (position + (textOf body).length) rest i b code →
        p ((textOf body).length + i) b code := by
  constructor
  · intro h i b code hkept
    exact h _ b code (keptAt_statement_add.mpr hkept)
  · intro h i b code hkept
    rcases Nat.lt_or_ge i (textOf body).length with hi | hi
    · exact absurd hkept (not_keptAt_statement hi)
    · obtain ⟨i, rfl⟩ := Nat.exists_eq_add_of_le hi
      exact h i b code (keptAt_statement_add.mp hkept)

end KeptAt

/-- What lies before all ranges is shifted by nothing. -/
theorem shiftedFrom_add {position length offset : Nat} {spans : List Span}
    (h : ∀ span ∈ spans, position + length ≤ span.start) (hoffset : position + length ≤ offset) :
    shiftedFrom position spans offset = length + shiftedFrom (position + length) spans offset := by
  rcases spans with _ | ⟨span, spans⟩
  · simp only [shiftedFrom]
    omega
  · have := h span List.mem_cons_self
    simp only [shiftedFrom]
    split <;> omega

/-- A kept lexeme at the beginning is shifted by nothing. -/
theorem shiftedFrom_kept {position i : Nat} {lexeme : Lexeme} {rest : List Segment}
    (h : i < lexeme.text.length) :
    shiftedFrom position (spansOf position (.kept lexeme :: rest)) (position + i) = i := by
  rw [spansOf]
  rcases hspans : spansOf (position + lexeme.text.length) rest with _ | ⟨span, spans⟩
  · simp only [shiftedFrom]
    omega
  · have hmem : span ∈ spansOf (position + lexeme.text.length) rest := hspans ▸ List.mem_cons_self
    have := le_start_of_mem_spansOf hmem
    simp only [shiftedFrom]
    split <;> omega

/-- Behind a kept lexeme the shift is that of the segments that follow, and the lexeme's length. -/
theorem shiftedFrom_kept_add (position i : Nat) (lexeme : Lexeme) (rest : List Segment) :
    shiftedFrom position (spansOf position (.kept lexeme :: rest))
        (position + (lexeme.text.length + i)) =
      lexeme.text.length + shiftedFrom (position + lexeme.text.length)
        (spansOf (position + lexeme.text.length) rest) (position + lexeme.text.length + i) := by
  rw [spansOf, ← Nat.add_assoc]
  apply shiftedFrom_add
  · intro span hspan
    exact (le_start_of_mem_spansOf hspan).1
  · exact Nat.le_add_right _ _

/-- Behind a statement the shift is that of the segments that follow, and the marker's length. -/
theorem shiftedFrom_statement_add (position i : Nat) (body : List Lexeme) (rest : List Segment) :
    shiftedFrom position (spansOf position (.statement body :: rest))
        (position + ((textOf body).length + i)) =
      marker.length + shiftedFrom (position + (textOf body).length)
        (spansOf (position + (textOf body).length) rest)
        (position + (textOf body).length + i) := by
  rw [spansOf, shiftedFrom, if_neg (by simp only; omega), Nat.sub_self, Nat.zero_add,
    ← Nat.add_assoc]

/-- What holds of every kept byte by its offset holds over the segments. -/
theorem forallKept_iff (p : UInt8 → Bool → Nat → Prop) (position start : Nat)
    (segments : List Segment) :
    ForallKept p start segments ↔
      ∀ i b code, KeptAt position segments i b code →
        p b code (start + shiftedFrom position (spansOf position segments) (position + i)) := by
  induction segments generalizing position start with
  | nil => simp [ForallKept, KeptAt]
  | cons segment rest ih =>
    rcases segment with lexeme | body
    · rw [ForallKept, ih (position + lexeme.text.length), forall_keptAt_kept]
      apply and_congr
      · apply forall₃_congr
        intro i b hbyte
        rw [shiftedFrom_kept (List.getElem?_eq_some_iff.mp hbyte).1]
      · apply forall₃_congr
        intro i b code
        rw [shiftedFrom_kept_add, ← Nat.add_assoc start]
    · rw [ForallKept, ih (position + (textOf body).length), forall_keptAt_statement]
      apply forall₃_congr
      intro i b code
      rw [shiftedFrom_statement_add, ← Nat.add_assoc start]

/-- A line can be read on up to index `last` of the segments' text from the end of a statement, or
from the beginning if the segments begin on the line of a statement. -/
def ReadOn (trailing : Bool) (position : Nat) (segments : List Segment) (last : Nat) : Prop :=
  ∃ first, first ≤ last ∧
    ((trailing = true ∧ first = 0) ∨
      ∃ span ∈ spansOf position segments, span.stop = position + first) ∧
    ∀ i, first ≤ i → i < last → ∀ code, ¬ KeptAt position segments i Byte.newline code

/-- There is no newline before index `i` of a text. -/
theorem not_mem_take_iff {text : Bytes} {i : Nat} :
    Byte.newline ∉ text.take i ↔ ∀ j < i, text[j]? ≠ some Byte.newline := by
  constructor
  · intro h j hj hbyte
    obtain ⟨hlength, hb⟩ := List.getElem?_eq_some_iff.mp hbyte
    exact h (List.mem_take_iff_getElem.mpr ⟨j, by omega, hb⟩)
  · intro h hmem
    obtain ⟨j, hj, hb⟩ := List.mem_take_iff_getElem.mp hmem
    exact h j (by omega) (List.getElem?_eq_some_iff.mpr ⟨by omega, hb⟩)

section ReadOn

variable {trailing : Bool} {position i : Nat} {lexeme : Lexeme} {body : List Lexeme}
  {rest : List Segment}

/-- Within a kept lexeme only a line on which the segments begin can be read on. -/
theorem readOn_kept (h : i < lexeme.text.length) :
    ReadOn trailing position (.kept lexeme :: rest) i ↔
      trailing = true ∧ Byte.newline ∉ lexeme.text.take i := by
  rw [not_mem_take_iff]
  constructor
  · rintro ⟨first, hfirst, ⟨htrailing, rfl⟩ | ⟨span, hspan, hstop⟩, hline⟩
    · refine ⟨htrailing, fun j hj hbyte => ?_⟩
      exact hline j (Nat.zero_le _) hj _ ((keptAt_kept (by omega)).mpr ⟨hbyte, rfl⟩)
    · rw [spansOf] at hspan
      have := le_start_of_mem_spansOf hspan
      omega
  · rintro ⟨htrailing, hline⟩
    refine ⟨0, Nat.zero_le _, .inl ⟨htrailing, rfl⟩, fun j _ hj code hkept => ?_⟩
    exact hline j hj ((keptAt_kept (by omega)).mp hkept).1

/-- Behind a kept lexeme a line that was open is still open if the lexeme has no newline. -/
theorem readOn_kept_add :
    ReadOn trailing position (.kept lexeme :: rest) (lexeme.text.length + i) ↔
      ReadOn (trailing && !lexeme.text.contains Byte.newline) (position + lexeme.text.length) rest
        i := by
  constructor
  · rintro ⟨first, hfirst, hopen, hline⟩
    refine ⟨first - lexeme.text.length, by omega, ?_, fun j hj hlast code hkept => ?_⟩
    · rcases hopen with ⟨rfl, rfl⟩ | ⟨span, hspan, hstop⟩
      · left
        have hnewline : Byte.newline ∉ lexeme.text.take lexeme.text.length := by
          refine not_mem_take_iff.mpr fun j hj hbyte => ?_
          exact hline j (Nat.zero_le _) (by omega) _ ((keptAt_kept hj).mpr ⟨hbyte, rfl⟩)
        rw [List.take_length] at hnewline
        exact ⟨by simpa using hnewline, Nat.zero_sub _⟩
      · rw [spansOf] at hspan
        have := le_start_of_mem_spansOf hspan
        exact .inr ⟨span, hspan, by omega⟩
    · exact hline _ (by omega) (by omega) code (keptAt_kept_add.mpr hkept)
  · rintro ⟨first, hfirst, ⟨hopen, rfl⟩ | ⟨span, hspan, hstop⟩, hline⟩
    · rw [Bool.and_eq_true] at hopen
      have hnewline : Byte.newline ∉ lexeme.text.take lexeme.text.length := by
        rw [List.take_length]
        simpa using hopen.2
      refine ⟨0, Nat.zero_le _, .inl ⟨hopen.1, rfl⟩, fun j _ hj code hkept => ?_⟩
      rcases Nat.lt_or_ge j lexeme.text.length with hin | hbehind
      · exact not_mem_take_iff.mp hnewline j hin ((keptAt_kept hin).mp hkept).1
      · obtain ⟨j, rfl⟩ := Nat.exists_eq_add_of_le hbehind
        exact hline j (Nat.zero_le _) (by omega) code (keptAt_kept_add.mp hkept)
    · refine ⟨lexeme.text.length + first, by omega, .inr ⟨span, hspan, by omega⟩,
        fun j hj hlast code hkept => ?_⟩
      obtain ⟨j, rfl⟩ := Nat.exists_eq_add_of_le (show lexeme.text.length ≤ j by omega)
      exact hline j (by omega) (by omega) code (keptAt_kept_add.mp hkept)

/-- Behind a statement its line is open. -/
theorem readOn_statement_add :
    ReadOn trailing position (.statement body :: rest) ((textOf body).length + i) ↔
      ReadOn true (position + (textOf body).length) rest i := by
  constructor
  · rintro ⟨first, hfirst, hopen, hline⟩
    refine ⟨first - (textOf body).length, by omega, ?_, fun j hj hlast code hkept => ?_⟩
    · rcases Nat.lt_or_ge (textOf body).length first with hlater | hearlier
      · rcases hopen with ⟨-, rfl⟩ | ⟨span, hspan, hstop⟩
        · omega
        · rcases List.mem_cons.mp hspan with rfl | hrest
          · simp only at hstop
            omega
          · exact .inr ⟨span, hrest, by omega⟩
      · exact .inl ⟨rfl, by omega⟩
    · exact hline _ (by omega) (by omega) code (keptAt_statement_add.mpr hkept)
  · rintro ⟨first, hfirst, hopen, hline⟩
    refine ⟨(textOf body).length + first, by omega, .inr ?_, fun j hj hlast code hkept => ?_⟩
    · rcases hopen with ⟨-, rfl⟩ | ⟨span, hspan, hstop⟩
      · exact ⟨_, List.mem_cons_self, rfl⟩
      · exact ⟨span, List.mem_cons_of_mem _ hspan, by omega⟩
    · obtain ⟨j, rfl⟩ := Nat.exists_eq_add_of_le (show (textOf body).length ≤ j by omega)
      exact hline j (by omega) (by omega) code (keptAt_statement_add.mp hkept)

end ReadOn

/-- What holds of every byte that trails a statement holds over the segments. -/
theorem lineKept_iff (p : UInt8 → Bool → Prop) (trailing : Bool) (position : Nat)
    (segments : List Segment) :
    LineKept p trailing segments ↔
      ∀ i b code, KeptAt position segments i b code → ReadOn trailing position segments i →
        p b code := by
  induction segments generalizing trailing position with
  | nil => simp [LineKept, KeptAt]
  | cons segment rest ih =>
    rcases segment with lexeme | body
    · rw [LineKept, ih _ (position + lexeme.text.length), forall_keptAt_kept]
      apply and_congr
      · constructor
        · intro h i b hbyte hreadOn
          obtain ⟨htrailing, hline⟩ :=
            (readOn_kept (List.getElem?_eq_some_iff.mp hbyte).1).mp hreadOn
          exact h htrailing i b hbyte hline
        · intro h htrailing i b hbyte hline
          exact h i b hbyte
            ((readOn_kept (List.getElem?_eq_some_iff.mp hbyte).1).mpr ⟨htrailing, hline⟩)
      · apply forall₃_congr
        intro i b code
        rw [readOn_kept_add]
    · rw [LineKept, ih _ (position + (textOf body).length), forall_keptAt_statement]
      apply forall₃_congr
      intro i b code
      rw [readOn_statement_add]

/-- Segments that begin the text count offsets from its beginning. -/
theorem keptAt_zero {segments : List Segment} {i : Nat} {b : UInt8} {code : Bool} :
    KeptAt 0 segments i b code ↔
      Outside (spansOf 0 segments) i ∧ (textOf (lexemesOf segments))[i]? = some b ∧
        (codeMaskOf (lexemesOf segments))[i]? = some code := by
  rw [KeptAt, Nat.zero_add]

/-- Reading on from the end of a statement is trailing it. -/
theorem readOn_false {segments : List Segment} {i : Nat} :
    ReadOn false 0 segments i ↔
      Trails (spansOf 0 segments) (textOf (lexemesOf segments)) i := by
  have hmask {j : Nat} (hbyte : (textOf (lexemesOf segments))[j]? = some Byte.newline) :
      ∃ code, (codeMaskOf (lexemesOf segments))[j]? = some code := by
    obtain ⟨hj, -⟩ := List.getElem?_eq_some_iff.mp hbyte
    exact ⟨_, List.getElem?_eq_getElem (by rwa [length_codeMaskOf])⟩
  constructor
  · rintro ⟨first, hfirst, ⟨hfalse, -⟩ | ⟨span, hspan, hstop⟩, hline⟩
    · cases hfalse
    · rw [Nat.zero_add] at hstop
      refine ⟨span, hspan, by omega, fun j hj hlast houtside hbyte => ?_⟩
      obtain ⟨code, hcode⟩ := hmask hbyte
      exact hline j (by omega) hlast code (keptAt_zero.mpr ⟨houtside, hbyte, hcode⟩)
  · rintro ⟨span, hspan, hstop, hline⟩
    refine ⟨span.stop, hstop, .inr ⟨span, hspan, (Nat.zero_add _).symm⟩,
      fun j hj hlast code hkept => ?_⟩
    obtain ⟨houtside, hbyte, -⟩ := keptAt_zero.mp hkept
    exact hline j hj hlast houtside hbyte

section Text

variable {text : Bytes} {segments : List Segment} (hlexemes : lexemesOf segments = lexemes text)
  (hfind : findStatements text = spansOf 0 segments)

include hlexemes hfind

/-- The bytes that the segments of a text keep are those outside its statements. -/
theorem keptAt_text {offset : Nat} {b : UInt8} {code : Bool} :
    KeptAt 0 segments offset b code ↔
      Outside (findStatements text) offset ∧ text[offset]? = some b ∧
        (codeMask text)[offset]? = some code := by
  rw [keptAt_zero, hlexemes, textOf_lexemes, hfind, codeMask, codeMaskOf]

/-- What holds of every byte outside the statements of a text holds over its segments. -/
theorem forallKept_text (p : UInt8 → Bool → Nat → Prop) :
    ForallKept p 0 segments ↔
      ∀ offset b code, Outside (findStatements text) offset → text[offset]? = some b →
        (codeMask text)[offset]? = some code →
        p b code (shiftedOffset (findStatements text) offset) := by
  rw [forallKept_iff p 0 0 segments]
  apply forall₃_congr
  intro offset b code
  rw [keptAt_text hlexemes hfind, and_imp, and_imp, Nat.zero_add, Nat.zero_add, ← hfind]
  rfl

/-- What holds of every byte that trails a statement of a text holds over its segments. -/
theorem lineKept_text (p : UInt8 → Bool → Prop) :
    LineKept p false segments ↔
      ∀ offset b code, Outside (findStatements text) offset → text[offset]? = some b →
        (codeMask text)[offset]? = some code → Trails (findStatements text) text offset →
        p b code := by
  rw [lineKept_iff p false 0 segments]
  apply forall₃_congr
  intro offset b code
  rw [keptAt_text hlexemes hfind, and_imp, and_imp, readOn_false, hlexemes, textOf_lexemes, hfind]

end Text

end DebugSweep.Strip
