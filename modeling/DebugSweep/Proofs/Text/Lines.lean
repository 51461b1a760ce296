import Mathlib.Data.List.Basic
import DebugSweep.Text.Ascii

/-!
# Lines

The lines of a text are what lies between its line ends, each of which is a newline or a carriage
return with a newline. There are as many lines as newlines, and one more if the text goes on behind
the last of them.
-/

namespace DebugSweep.Text

/-- A carriage return, which belongs to the line end if a newline follows it. -/
abbrev carriageReturn : UInt8 := 0x0D

/-- The lines of a text, without their ends. -/
def lines : Bytes → List Bytes
  | [] => []
  | b :: rest =>
    if b = Byte.newline then [] :: lines rest
    else if b = carriageReturn ∧ rest.head? = some Byte.newline then lines rest
    else
      match lines rest with
      | [] => [[b]]
      | line :: more => (b :: line) :: more

/-- Whether the text is empty or its last line has an end. -/
def endsLine (text : Bytes) : Bool := text.getLast?.all (· == Byte.newline)

theorem endsLine_eq_true_iff {text : Bytes} :
    endsLine text = true ↔ text = [] ∨ text.getLast? = some Byte.newline := by
  cases hlast : text.getLast? with
  | none => simp [endsLine, List.getLast?_eq_none_iff.mp hlast]
  | some b =>
    have hnil : text ≠ [] := by
      rintro rfl
      cases hlast
    simp [endsLine, hlast, hnil]

theorem endsLine_cons {rest : Bytes} (h : rest ≠ []) (b : UInt8) :
    endsLine (b :: rest) = endsLine rest := by
  rw [endsLine, endsLine, List.getLast?_cons_of_ne_nil h]

/-- There are as many lines as newlines, and perhaps a last one without an end. -/
theorem length_lines (text : Bytes) :
    (lines text).length = text.count Byte.newline + if endsLine text then 0 else 1 := by
  induction text with
  | nil => rfl
  | cons b rest ih =>
    by_cases hrest : rest = []
    · subst hrest
      by_cases hb : b = Byte.newline <;> simp [lines, endsLine, hb]
    · rw [endsLine_cons hrest, lines, List.count_cons]
      split
      · rename_i hb
        simp only [hb, List.length_cons, ih, beq_self_eq_true, if_true]
        omega
      · rename_i hb
        rw [beq_false_of_ne hb, if_neg Bool.false_ne_true, Nat.add_zero, ← ih]
        split
        · rfl
        · cases hlines : lines rest with
          | cons line more => rfl
          | nil =>
            -- a text with something in it has a line
            rw [hlines, List.length_nil] at ih
            have hends : endsLine rest = true := by
              by_contra hopen
              simp [hopen] at ih
            have hlast := (endsLine_eq_true_iff.mp hends).resolve_left hrest
            have := List.count_pos_iff.mpr (List.mem_of_getLast? hlast)
            omega

/-- The number of lines does not grow if the number of newlines does not and a last line with an end
still has one. -/
theorem length_lines_le {before after : Bytes}
    (hcount : after.count Byte.newline ≤ before.count Byte.newline)
    (hends : endsLine before = true → endsLine after = true) :
    (lines after).length ≤ (lines before).length := by
  rw [length_lines, length_lines]
  cases hbefore : endsLine before with
  | true =>
    rw [hends hbefore]
    simpa using hcount
  | false =>
    split <;> simp only [Bool.false_eq_true, if_false] <;> omega

end DebugSweep.Text
