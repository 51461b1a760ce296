import DebugSweep.Proofs.Source.Concatenation
import DebugSweep.Proofs.Source.Written

/-!
# Stretches in which no call begins

Where neither a call nor a comment or literal begins, the search for statements passes over byte by
byte, and the last byte that is no blank decides whether a statement can begin afterwards.
-/

namespace DebugSweep.Source

/-- No call of this name begins in a stretch of a text that is followed by `rest`. -/
def NoCallBegins (name : Bytes) : Bytes → Bytes → Prop
  | [], _ => True
  | b :: kept, rest =>
    ¬name ++ [Byte.openParen] <+: b :: (kept ++ rest) ∧ NoCallBegins name kept rest

/-- What does not hold a byte and begins a text begins it before the byte. -/
theorem prefix_of_not_mem {stop : UInt8} {part kept rest : Bytes} (h : stop ∉ part)
    (hbegins : part <+: kept ++ stop :: rest) : part <+: kept := by
  have hstop : kept ++ [stop] <+: kept ++ stop :: rest := ⟨rest, by simp⟩
  rcases List.prefix_or_prefix_of_prefix hbegins hstop with hshort | hlong
  · rcases List.prefix_concat_iff.mp hshort with rfl | hkept
    · simp at h
    · exact hkept
  · exact absurd (hlong.mem (by simp)) h

/-- No call begins at bytes that its opening does not hold. -/
theorem noCallBegins_of_not_mem {name kept : Bytes}
    (h : ∀ b ∈ kept, b ∉ name ++ [Byte.openParen]) (rest : Bytes) :
    NoCallBegins name kept rest := by
  induction kept with
  | nil => trivial
  | cons b kept ih =>
    rw [List.forall_mem_cons] at h
    refine ⟨fun hbegins => h.1 ?_, ih h.2⟩
    rcases List.prefix_cons_iff.mp hbegins with hnil | ⟨more, hmore, -⟩
    · simp at hnil
    · exact hmore ▸ List.mem_cons_self

/-- No call begins at a newline. -/
theorem noCallBegins_newline {name : Bytes} (hname : Byte.newline ∉ name) (rest : Bytes) :
    NoCallBegins name [Byte.newline] rest := by
  refine noCallBegins_of_not_mem (fun b hb => ?_) rest
  cases List.mem_singleton.mp hb
  rw [List.mem_append, not_or]
  exact ⟨hname, by decide⟩

/-- No call begins in a line that does not hold its name with a parenthesis. -/
theorem noCallBegins_line {name line : Bytes} (h : ¬name ++ [Byte.openParen] <:+: line)
    (hname : Byte.newline ∉ name) (rest : Bytes) :
    NoCallBegins name (line ++ [Byte.newline]) rest := by
  have hopening : Byte.newline ∉ name ++ [Byte.openParen] := by
    rw [List.mem_append, not_or]
    exact ⟨hname, by decide⟩
  induction line with
  | nil => exact noCallBegins_newline hname rest
  | cons b line ih =>
    refine ⟨fun hbegins => h ?_, ih fun hoccurs => h (List.infix_cons hoccurs)⟩
    have hline : b :: (line ++ [Byte.newline] ++ rest) = (b :: line) ++ Byte.newline :: rest := by
      simp
    exact (prefix_of_not_mem hopening (hline ▸ hbegins)).isInfix

/-- Whether a statement can begin behind a stretch without comments and literals, where `atStart`
says so of the place before it. -/
def beginsAfter (atStart : Bool) (kept : Bytes) : Bool :=
  kept.foldl (fun atStart b => if Byte.isBlank b then atStart else isBoundary b) atStart

@[simp] theorem beginsAfter_cons (atStart : Bool) (b : UInt8) (kept : Bytes) :
    beginsAfter atStart (b :: kept) =
      beginsAfter (if Byte.isBlank b then atStart else isBoundary b) kept := rfl

/-- The last byte that is no blank decides. -/
theorem beginsAfter_eq (atStart : Bool) (kept : Bytes) :
    beginsAfter atStart kept =
      ((kept.filter (!Byte.isBlank ·)).getLast?.map isBoundary).getD atStart := by
  induction kept generalizing atStart with
  | nil => rfl
  | cons b kept ih =>
    rw [beginsAfter_cons, ih, List.filter_cons]
    cases hb : Byte.isBlank b with
    | true => rfl
    | false =>
      rw [Bool.not_false, if_pos rfl, List.getLast?_cons]
      cases (kept.filter (!Byte.isBlank ·)).getLast? <;> rfl

/-- Blanks leave it at that. -/
theorem beginsAfter_of_isBlank {kept : Bytes} (h : ∀ b ∈ kept, Byte.isBlank b = true)
    (atStart : Bool) : beginsAfter atStart kept = atStart := by
  induction kept with
  | nil => rfl
  | cons b kept ih =>
    rw [List.forall_mem_cons] at h
    rw [beginsAfter_cons, if_pos h.1, ih h.2]

/-- Outside of a word blanks do not lead into one. -/
theorem wordAfter_of_isBlank {kept : Bytes} (h : ∀ b ∈ kept, Byte.isBlank b = true) :
    wordAfter false kept = false := by
  induction kept with
  | nil => rfl
  | cons b kept ih =>
    rw [List.forall_mem_cons] at h
    rw [wordAfter_cons, isWord_of_isBlank_or_isBoundary (.inl h.1), ih h.2]

/-- Where no call opens there is no candidate. -/
theorem candidate_of_not_prefix {text : Bytes}
    (h : ∀ name ∈ callNames, ¬name ++ [Byte.openParen] <+: text) : candidate text = .other := by
  cases hopening : callOpening? text with
  | none => rw [candidate, hopening]
  | some n =>
    obtain ⟨name, hname, rest, rfl⟩ := exists_of_callOpening? hopening
    exact absurd ⟨rest, by simp⟩ (h name hname)

/-- Where no comment, literal or call begins the search passes over byte by byte. -/
theorem statementsFrom_kept {kept rest : Bytes}
    (hcode : ∀ b ∈ kept, Byte.isQuote b = false ∧ b ≠ Byte.slash)
    (hend : kept.getLast? ≠ some Byte.letterR)
    (hcall : ∀ name ∈ callNames, NoCallBegins name kept rest) (position : Nat)
    (atStart inWord : Bool) :
    statementsFrom position 0 atStart inWord (kept ++ rest) =
      statementsFrom (position + kept.length) 0 (beginsAfter atStart kept) (wordAfter inWord kept)
        rest := by
  induction kept generalizing position atStart inWord with
  | nil => rfl
  | cons b kept ih =>
    rw [List.forall_mem_cons] at hcode
    obtain ⟨⟨hquote, hslash⟩, hcode⟩ := hcode
    have hnext : b = Byte.letterR → ∀ q ∈ (kept ++ rest).head?, Byte.isQuote q = false := by
      rintro rfl
      cases kept with
      | nil => exact absurd rfl hend
      | cons c kept =>
        rintro q ⟨⟩
        exact (hcode _ List.mem_cons_self).1
    have htrivia : triviaLength? inWord (b :: (kept ++ rest)) = none := by
      rw [triviaLength?_eq, opening?_of_ne_slash hslash hquote fun hb _ => hnext hb]
      rfl
    have hcandidate : candidate (b :: (kept ++ rest)) = .other :=
      candidate_of_not_prefix fun name hname => (hcall name hname).1
    have hend' : kept.getLast? ≠ some Byte.letterR := by
      intro hlast
      rw [List.getLast?_cons, hlast] at hend
      exact hend rfl
    rw [List.cons_append, statementsFrom_code htrivia, hcandidate, ite_self,
      ih hcode hend' (fun name hname => (hcall name hname).2), beginsAfter_cons, wordAfter_cons,
      List.length_cons, show position + 1 + kept.length = position + (kept.length + 1) by omega]

end DebugSweep.Source
