import DebugSweep.Proofs.Strip.Leftovers

/-!
# No broad match is left

A broad pass takes a call whose arguments run up to the first terminator. Where it takes none, the
first terminator behind the name does not follow a parenthesis, or there is none; and the terminator
of a call that is replaced inside the arguments would follow one. So a broad pass leaves no match
behind, and no later pass brings one about, unless a marker becomes the beginning of a name. No
marker becomes the beginning of `print`. One becomes the beginning of `debugPrint` only where the
rest of the name has stood behind a terminator from the start (`strip_legacy_no_broad_match`).
-/

namespace DebugSweep.Strip

open Source

/-- Somewhere in the text a broad call of the name stands: the name with its parenthesis, arguments
without a terminator, and the end of a call. -/
def BroadMatch (name text : Bytes) : Prop :=
  ∃ inner, terminator ∉ inner ∧
    name ++ Byte.openParen :: (inner ++ [Byte.closeParen, terminator]) <:+: text

/-- A broad match is a call that the broad pass takes, if it has not passed over it. -/
theorem broadMatch_iff {name text : Bytes} :
    BroadMatch name text ↔
      ∃ before inner after, Pass.Takes ⟨name, .broad⟩ text before inner after := by
  constructor
  · rintro ⟨inner, hinner, before, after, htext⟩
    exact ⟨before, inner, after, by rw [← htext, List.append_assoc]; rfl, hinner⟩
  · rintro ⟨before, inner, after, rfl, hinner⟩
    exact ⟨inner, hinner, before, after, List.append_assoc ..⟩

/-- Text that begins with no letter of a marker and holds no slash has been there from the start
where it stands after several passes. -/
theorem infix_source_of_runPasses {b : UInt8} {word : Bytes} (hb : b ∉ marker)
    (hword : Byte.slash ∉ word) {passes : List Pass} {text : Bytes}
    (h : b :: word <:+: (runPasses passes text).text) : b :: word <:+: text := by
  induction passes generalizing text with
  | nil => exact h
  | cons pass passes ih =>
    rw [runPasses_cons] at h
    exact (rewrites_run pass text).infix_source hb hword (ih h)

/-- Behind the last of several passes, a broad one, a broad match is left only where the rest of its
name has stood behind a terminator from the start. -/
theorem seam_infix_of_broadMatch {name : Bytes} (hname : name ∈ callNames) {passes : List Pass}
    {text : Bytes} (h : BroadMatch name (runPasses (passes ++ [⟨name, .broad⟩]) text).text) :
    Pass.seam ⟨name, .broad⟩ <:+: text := by
  obtain ⟨before, inner, after, htakes⟩ := broadMatch_iff.mp h
  rw [runPasses_append] at htakes
  obtain ⟨-, hseam⟩ := (htakes.of_run_self hname).resolve_right fun h => Reach.noConfusion h.1
  have hslash : Byte.slash ∉ name.drop 1 ++ [Byte.openParen] := by
    simp only [callNames, List.mem_cons, List.not_mem_nil, or_false] at hname
    rcases hname with rfl | rfl <;> decide
  exact infix_source_of_runPasses (by decide) hslash hseam

/-- No text has a broad match of `print` after it has been stripped, and none of `debugPrint` unless
the rest of that name stands behind a terminator in it. -/
theorem strip_legacy_no_broad_match (text : Bytes) :
    ¬BroadMatch (ascii "print") (strip .legacy text).text ∧
      (¬ascii ";ebugPrint(" <:+: text →
        ¬BroadMatch (ascii "debugPrint") (strip .legacy text).text) := by
  constructor
  · intro hmatch
    obtain ⟨before, inner, after, htakes⟩ := broadMatch_iff.mp hmatch
    obtain ⟨hnames, horder⟩ := passes_ordered
    have hpass : (⟨ascii "print", .broad⟩ : Pass) ∈ passes := by decide
    have howed := allOwed_runPasses hnames horder hpass text before inner after htakes
    have hstraddles := howed.resolve_right fun h => Reach.noConfusion h.1
    exact absurd (hstraddles.name_eq (by decide)) (by decide)
  · intro hnone hmatch
    have hpasses : passes = passes.dropLast ++ [⟨ascii "debugPrint", .broad⟩] := rfl
    rw [strip, hpasses] at hmatch
    exact hnone (seam_infix_of_broadMatch (by decide) hmatch)

/-- Calls in each other's arguments, next to each other, and one that is never closed. -/
theorem strip_legacy_no_broad_match_nested :
    ¬ascii ";ebugPrint(" <:+: ascii "print(debugPrint(f(1)); g(2));debugPrint(h(3));print('x" ∧
      (strip .legacy (ascii "print(debugPrint(f(1)); g(2));debugPrint(h(3));print('x")).text =
        ascii "// Debug logging removed g(2));// Debug logging removedprint('x" ∧
      ¬BroadMatch (ascii "debugPrint")
        (strip .legacy (ascii "print(debugPrint(f(1)); g(2));debugPrint(h(3));print('x")).text := by
  have hnone : ¬ascii ";ebugPrint(" <:+:
      ascii "print(debugPrint(f(1)); g(2));debugPrint(h(3));print('x" := by decide +kernel
  exact ⟨hnone, by decide +kernel, (strip_legacy_no_broad_match _).2 hnone⟩

/-- Otherwise the last letter of a marker can become the first one of a name. -/
example : (strip .legacy (ascii "debugPrint(f(1));ebugPrint(2);")).text =
    ascii "// Debug logging removedebugPrint(2);" := by decide +kernel

end DebugSweep.Strip
