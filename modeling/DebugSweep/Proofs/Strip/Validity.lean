import DebugSweep.Proofs.Strip.Reduction
import DebugSweep.Proofs.Text.Validity

/-!
# Stripping keeps UTF-8

What a strategy replaces begins with the name of a call and ends with the terminator, so it is cut
out between characters, and the marker that is put in its place is ASCII. A file that could be
decoded before it was stripped can therefore be decoded afterwards (`isValid_strip`).
-/

namespace DebugSweep.Strip

open Source Utf8

/-- What a range is that can be cut out of UTF-8: it begins and ends with a byte of ASCII. -/
structure IsAsciiEnded (range : Bytes) : Prop where
  head : ∃ b rest, b < 0x80 ∧ range = b :: rest
  last : ∃ front b, b < 0x80 ∧ range = front ++ [b]

/-- A range that begins with the name of a call and ends with the terminator. -/
theorem isAsciiEnded_of_callName {name : Bytes} (hname : name ∈ callNames) (rest : Bytes) :
    IsAsciiEnded (name ++ (rest ++ [terminator])) where
  head := by
    simp only [callNames, List.mem_cons, List.not_mem_nil, or_false] at hname
    rcases hname with rfl | rfl
    · exact ⟨0x70, _, by decide, rfl⟩
    · exact ⟨0x64, _, by decide, rfl⟩
  last := ⟨name ++ rest, terminator, by decide, (List.append_assoc ..).symm⟩

/-- A statement can be cut out of UTF-8. -/
theorem IsStatementText.isAsciiEnded {range : Bytes} (h : IsStatementText range) :
    IsAsciiEnded range := by
  obtain ⟨_, ⟨hname, -, -⟩, rfl⟩ := h
  rename_i arguments blanks
  obtain ⟨name, hcall, rfl⟩ := Lexeme.isCallName_iff.mp hname
  have hends := isAsciiEnded_of_callName hcall
    (textOf (.single Byte.openParen :: (arguments ++ blanks)))
  simpa [textOf_append, Lexeme.single] using hends

/-- A call that a pass takes can be cut out of UTF-8. -/
theorem Pass.IsCall.isAsciiEnded {pass : Pass} (hname : pass.name ∈ callNames) {range : Bytes}
    (h : pass.IsCall range) : IsAsciiEnded range := by
  obtain ⟨inner, -, rfl⟩ := h
  have hends := isAsciiEnded_of_callName hname (Byte.openParen :: (inner ++ [Byte.closeParen]))
  simpa [Pass.callOf] using hends

/-- A text is UTF-8 if and only if it is before, inside and behind a range that can be cut out. -/
theorem IsAsciiEnded.isValidFrom_append {range : Bytes} (h : IsAsciiEnded range)
    {state : Option Begun} (hstate : OwesNoAscii state) (before after : Bytes) :
    isValidFrom state (before ++ (range ++ after)) =
      (isValidFrom state before && (isValid range && isValid after)) := by
  have hfront : isValidFrom state (before ++ (range ++ after)) =
      (isValidFrom state before && isValid (range ++ after)) := by
    obtain ⟨b, tail, hb, rfl⟩ := h.head
    have hcut := isValidFrom_append_cons owesNoAscii_none hb [] (tail ++ after)
    rw [List.cons_append, isValidFrom_append_cons hstate hb, isValid, ← List.nil_append (b :: _),
      hcut]
    rfl
  have hbehind : isValid (range ++ after) = (isValid range && isValid after) := by
    obtain ⟨front, c, hc, rfl⟩ := h.last
    have hcut (rest : Bytes) := isValidFrom_append_cons owesNoAscii_none hc front rest
    rw [isValid, List.append_assoc, List.singleton_append, hcut after, isValid, hcut [], isValid,
      isValidFrom, Option.isNone_none, Bool.and_true]
  rw [hfront, hbehind]

/-- Bytes after the marker are read as if they stood alone. -/
theorem isValidFrom_marker (rest : Bytes) :
    isValidFrom none (marker ++ rest) = isValidFrom none rest := by
  have hmarker : marker ++ rest = marker.dropLast ++ 0x64 :: rest := rfl
  have hvalid : isValidFrom none marker.dropLast = true := by decide +kernel
  rw [hmarker, isValidFrom_append_cons owesNoAscii_none (by decide), hvalid, Bool.true_and]

/-- Replacing ranges that are cut out between characters keeps UTF-8. -/
theorem RangesReplaced.isValidFrom {count : Nat} {before after : Bytes}
    (h : RangesReplaced IsAsciiEnded count before after) {state : Option Begun}
    (hstate : OwesNoAscii state) (hvalid : isValidFrom state before = true) :
    Utf8.isValidFrom state after = true := by
  induction h generalizing state with
  | nil => exact hvalid
  | kept b _ ih =>
    rw [Utf8.isValidFrom] at hvalid ⊢
    cases hread : state.elim (first b) (·.next b) with
    | complete c =>
      rw [hread] at hvalid
      exact ih owesNoAscii_none hvalid
    | begun begun =>
      rw [hread] at hvalid
      exact ih (owesNoAscii_of_read hread) hvalid
    | refused => rw [hread] at hvalid; cases hvalid
  | @range count range before after hrange _ ih =>
    -- the range begins where no character has begun, and what follows it is UTF-8 by itself
    have hcut := hrange.isValidFrom_append hstate [] before
    rw [List.nil_append, hvalid, eq_comm, Bool.and_eq_true, Bool.and_eq_true] at hcut
    obtain ⟨hbegun, -, hbefore⟩ := hcut
    have hnone : state = none := by simpa [Utf8.isValidFrom] using hbegun
    rw [hnone, isValidFrom_marker]
    exact ih owesNoAscii_none hbefore

/-- Passes that look for the names of calls keep UTF-8. -/
theorem isValid_runPasses {passes : List Pass} (hnames : ∀ pass ∈ passes, pass.name ∈ callNames)
    {text : Bytes} (h : isValid text = true) : isValid (runPasses passes text).text = true := by
  induction passes generalizing text with
  | nil => exact h
  | cons pass passes ih =>
    rw [runPasses_cons]
    refine ih (fun pass hpass => hnames pass (List.mem_cons_of_mem _ hpass)) ?_
    have hreplaced := (rewrites_run pass text).replaced.mono fun range hcall =>
      hcall.isAsciiEnded (hnames pass List.mem_cons_self)
    exact hreplaced.isValidFrom owesNoAscii_none h

/-- A stripped text is UTF-8 if the text was. -/
theorem isValid_strip (strategy : Strategy) {text : Bytes} (h : isValid text = true) :
    isValid (strip strategy text).text = true := by
  cases strategy with
  | scan =>
    have hreplaced := (replaced_strip_scan text).mono fun range hrange => hrange.isAsciiEnded
    exact hreplaced.isValidFrom owesNoAscii_none h
  | legacy => exact isValid_runPasses (by decide) h

end DebugSweep.Strip
