import Mathlib.Data.List.Basic
import DebugSweep.Text.Utf8

/-!
# UTF-8 is cut at ASCII bytes

A byte of an ASCII character completes itself and belongs to no other character. So a text that is
cut at such a byte is UTF-8 if and only if both parts are, whatever character has begun before. Before
and behind it lies a boundary of characters.
-/

namespace DebugSweep.Utf8

/-- No byte that is owed to the character that has begun, if one has, is in ASCII. -/
def OwesNoAscii (state : Option Begun) : Prop := ∀ begun ∈ state, 0x80 ≤ begun.low

theorem owesNoAscii_none : OwesNoAscii none := fun _ h => nomatch h

/-- A character that a byte begins or goes on with is owed no ASCII byte. -/
theorem owesNoAscii_of_read {state : Option Begun} {b : UInt8} {begun : Begun}
    (h : state.elim (first b) (·.next b) = .begun begun) : OwesNoAscii (some begun) := by
  intro _ hbegun
  obtain rfl := Option.mem_some.mp hbegun
  cases state with
  | none =>
    rw [Option.elim_none, first] at h
    split_ifs at h <;> cases h <;> simp only [UInt8.reduceLE]
  | some state =>
    rw [Option.elim_some, Begun.next] at h
    split_ifs at h
    cases h
    exact UInt8.le_refl _

/-- An ASCII byte completes itself. -/
theorem first_of_lt {b : UInt8} (hb : b < 0x80) : first b = .complete (Char.ofNat b.toNat) := by
  rw [first, if_pos hb]

/-- An ASCII byte cannot stand inside a character. -/
theorem next_of_lt {begun : Begun} (hbegun : 0x80 ≤ begun.low) {b : UInt8} (hb : b < 0x80) :
    begun.next b = .refused := by
  rw [Begun.next, if_neg fun h => absurd (UInt8.le_trans hbegun h.1) (UInt8.not_le.mpr hb)]

/-- A text is UTF-8 if and only if it is before and after an ASCII byte. -/
theorem isValidFrom_append_cons {state : Option Begun} (hstate : OwesNoAscii state) {b : UInt8}
    (hb : b < 0x80) (front rest : Bytes) :
    isValidFrom state (front ++ b :: rest) =
      (isValidFrom state front && isValidFrom none rest) := by
  induction front generalizing state with
  | nil =>
    cases state with
    | none => simp [isValidFrom, first_of_lt hb]
    | some begun => simp [isValidFrom, next_of_lt (hstate begun rfl) hb]
  | cons c front ih =>
    rw [List.cons_append, isValidFrom, isValidFrom]
    cases hread : state.elim (first c) (·.next c) with
    | complete _ => exact ih owesNoAscii_none
    | begun begun => exact ih (owesNoAscii_of_read hread)
    | refused => rfl

/-- A text begins and ends at a boundary. -/
theorem isBoundary_ends (text : Bytes) :
    isBoundary text 0 = true ∧ isBoundary text text.length = true := by
  constructor
  · cases text <;> simp [isBoundary]
  · simp [isBoundary]

/-- An ASCII byte begins a character. -/
theorem isBoundary_of_lt {text rest : Bytes} {i : Nat} {b : UInt8} (h : text.drop i = b :: rest)
    (hb : b < 0x80) : isBoundary text i = true := by
  have hbyte : text[i]? = some b := by rw [← List.head?_drop, h, List.head?_cons]
  simp only [isBoundary, hbyte, hb, decide_true, Bool.or_true, Bool.true_or]

/-- Behind an ASCII byte of UTF-8 another character begins, or the text ends. -/
theorem isBoundary_succ_of_lt {text rest : Bytes} {i : Nat} {b : UInt8}
    (hvalid : isValid text = true) (h : text.drop i = b :: rest) (hb : b < 0x80) :
    isBoundary text (i + 1) = true := by
  have hdrop : text.drop (i + 1) = rest := by rw [← List.drop_drop, h, List.drop_one, List.tail_cons]
  have hrest : isValidFrom none rest = true := by
    rw [isValid, ← List.take_append_drop i text, h, isValidFrom_append_cons owesNoAscii_none hb,
      Bool.and_eq_true] at hvalid
    exact hvalid.2
  have hbyte : text[i + 1]? = rest.head? := by rw [← List.head?_drop, hdrop]
  cases rest with
  | nil =>
    have hlength := congrArg List.length h
    simp only [List.length_drop, List.length_singleton] at hlength
    simp only [isBoundary, hbyte, List.head?_nil, beq_iff_eq]
    omega
  | cons c rest =>
    by_cases hlow : c < 0x80
    · exact isBoundary_of_lt hdrop hlow
    · by_cases hhigh : 0xC0 ≤ c
      · simp only [isBoundary, hbyte, List.head?_cons, hhigh, decide_true, Bool.or_true]
      · have hfirst : c < 0xC2 :=
          UInt8.lt_trans (UInt8.not_le.mp hhigh) (by decide)
        rw [isValidFrom, Option.elim_none, first, if_neg hlow, if_pos hfirst] at hrest
        cases hrest

/-- Behind ASCII bytes that begin at a boundary lies a boundary. -/
theorem isBoundary_add_of_forall {text passed rest : Bytes} {i : Nat} (hvalid : isValid text = true)
    (h : text.drop i = passed ++ rest) (hpassed : ∀ b ∈ passed, b < 0x80)
    (hi : isBoundary text i = true) : isBoundary text (i + passed.length) = true := by
  induction passed generalizing i with
  | nil => exact hi
  | cons b passed ih =>
    have hb := hpassed b List.mem_cons_self
    have hnext : text.drop (i + 1) = passed ++ rest := by
      rw [← List.drop_drop, h, List.drop_one, List.cons_append, List.tail_cons]
    rw [List.length_cons, Nat.add_comm passed.length, ← Nat.add_assoc]
    exact ih hnext (fun c hc => hpassed c (List.mem_cons_of_mem _ hc))
      (isBoundary_succ_of_lt hvalid h hb)

end DebugSweep.Utf8
