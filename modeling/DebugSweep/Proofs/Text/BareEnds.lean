import Mathlib.Data.List.Infix
import DebugSweep.Proofs.Text.Lines

/-!
# Line ends that are newlines alone

`bareEnds` drops the carriage return of every line end. What is left of a text does not depend on
what follows it but for one byte, the newline before which a carriage return at its end would have
to stand, so texts are treated part by part (`bareEnds_append`), and `bareOffset` says where an
offset of a text comes to lie.
-/

namespace DebugSweep.Text

/-- The text in which every line end is a newline alone. -/
def bareEnds : Bytes → Bytes
  | [] => []
  | b :: rest =>
    if b = carriageReturn ∧ rest.head? = some Byte.newline then bareEnds rest
    else b :: bareEnds rest

/-- What is left of a text that `rest` follows. -/
def bareBefore (rest : Bytes) : Bytes → Bytes
  | [] => []
  | b :: text =>
    if b = carriageReturn ∧ (text ++ rest).head? = some Byte.newline then bareBefore rest text
    else b :: bareBefore rest text

/-- Where an offset of a text comes to lie: behind what is left of the bytes before it. -/
def bareOffset (text : Bytes) (offset : Nat) : Nat :=
  (bareBefore (text.drop offset) (text.take offset)).length

@[simp] theorem bareEnds_nil : bareEnds [] = [] := rfl

/-- A byte stays unless it is a carriage return before a newline. -/
theorem bareEnds_cons {b : UInt8} {rest : Bytes}
    (h : ¬(b = carriageReturn ∧ rest.head? = some Byte.newline)) :
    bareEnds (b :: rest) = b :: bareEnds rest := by
  rw [bareEnds, if_neg h]

/-- A carriage return before a newline is dropped. -/
@[simp] theorem bareEnds_carriageReturn (rest : Bytes) :
    bareEnds (carriageReturn :: Byte.newline :: rest) = Byte.newline :: bareEnds rest := rfl

/-- A newline stays. -/
@[simp] theorem bareEnds_newline (rest : Bytes) :
    bareEnds (Byte.newline :: rest) = Byte.newline :: bareEnds rest := rfl

/-- A text goes on with a byte that stays, or with a carriage return before a newline. -/
theorem bareEnds_cases (b : UInt8) (rest : Bytes) :
    (∃ tail, b = carriageReturn ∧ rest = Byte.newline :: tail) ∨
      ¬(b = carriageReturn ∧ rest.head? = some Byte.newline) := by
  by_cases h : b = carriageReturn ∧ rest.head? = some Byte.newline
  · obtain ⟨tail, hrest⟩ := List.head?_eq_some_iff.mp h.2
    exact .inl ⟨tail, h.1, hrest⟩
  · exact .inr h

/-- Texts are treated part by part. -/
theorem bareEnds_append (text rest : Bytes) :
    bareEnds (text ++ rest) = bareBefore rest text ++ bareEnds rest := by
  induction text with
  | nil => rfl
  | cons b text ih =>
    rw [List.cons_append, bareEnds, bareBefore, ih]
    split <;> rfl

/-- A part of a text is treated part by part. -/
theorem bareBefore_append (rest first second : Bytes) :
    bareBefore rest (first ++ second) =
      bareBefore (second ++ rest) first ++ bareBefore rest second := by
  induction first with
  | nil => rfl
  | cons b first ih =>
    rw [List.cons_append, bareBefore, bareBefore, ih, List.append_assoc]
    split <;> rfl

/-- Bytes that are no carriage returns stay. -/
theorem bareBefore_of_not_mem {text : Bytes} (h : carriageReturn ∉ text) (rest : Bytes) :
    bareBefore rest text = text := by
  induction text with
  | nil => rfl
  | cons b text ih =>
    rw [List.mem_cons, not_or] at h
    rw [bareBefore, if_neg fun hb => h.1 hb.1.symm, ih h.2]

/-- Nothing is left that was not there. -/
theorem bareBefore_sublist (rest text : Bytes) : (bareBefore rest text).Sublist text := by
  induction text with
  | nil => exact .slnil
  | cons b text ih =>
    rw [bareBefore]
    split
    · exact ih.cons b
    · exact ih.cons_cons b

/-- A word that holds no line end begins what is left of a text if and only if it begins the
text. -/
theorem prefix_bareEnds_iff {word : Bytes} (hreturn : carriageReturn ∉ word)
    (hnewline : Byte.newline ∉ word) {text : Bytes} : word <+: bareEnds text ↔ word <+: text := by
  induction word generalizing text with
  | nil => simp
  | cons c word ih =>
    rw [List.mem_cons, not_or] at hreturn hnewline
    cases text with
    | nil => rfl
    | cons b rest =>
      rcases bareEnds_cases b rest with ⟨tail, rfl, rfl⟩ | hstays
      · rw [bareEnds_carriageReturn, List.cons_prefix_cons, List.cons_prefix_cons]
        exact iff_of_false (fun h => hnewline.1 h.1.symm) fun h => hreturn.1 h.1.symm
      · rw [bareEnds_cons hstays, List.cons_prefix_cons, List.cons_prefix_cons,
          ih hreturn.2 hnewline.2]

/-- A byte that belongs to no line end begins what is left if and only if it begins the text. -/
theorem head?_bareEnds_iff {b : UInt8} (hreturn : b ≠ carriageReturn) (hnewline : b ≠ Byte.newline)
    {text : Bytes} : (bareEnds text).head? = some b ↔ text.head? = some b := by
  have hword (text : Bytes) : text.head? = some b ↔ [b] <+: text := by
    cases text <;> simp [eq_comm]
  rw [hword, hword,
    prefix_bareEnds_iff (by simpa using hreturn.symm) (by simpa using hnewline.symm)]

/-- What is left of a text is what is left before an offset, and what is left behind it. -/
theorem bareEnds_eq (text : Bytes) (offset : Nat) :
    bareEnds text =
      bareBefore (text.drop offset) (text.take offset) ++ bareEnds (text.drop offset) := by
  rw [← bareEnds_append, List.take_append_drop]

theorem take_bareOffset (text : Bytes) (offset : Nat) :
    (bareEnds text).take (bareOffset text offset) =
      bareBefore (text.drop offset) (text.take offset) := by
  rw [bareEnds_eq text offset, bareOffset, List.take_left]

theorem drop_bareOffset (text : Bytes) (offset : Nat) :
    (bareEnds text).drop (bareOffset text offset) = bareEnds (text.drop offset) := by
  rw [bareEnds_eq text offset, bareOffset, List.drop_left]

/-- The end of a text comes to lie at the end of what is left. -/
theorem bareOffset_length (text : Bytes) :
    bareOffset text text.length = (bareEnds text).length := by
  have hend := drop_bareOffset text text.length
  rw [List.drop_length, bareEnds_nil, List.drop_eq_nil_iff] at hend
  refine Nat.le_antisymm ?_ hend
  rw [bareEnds_eq text text.length, bareOffset, List.length_append]
  exact Nat.le_add_right _ _

/-- Offsets are counted in portions. -/
theorem bareOffset_add (text : Bytes) (first second : Nat) :
    bareOffset text (first + second) =
      bareOffset text first + bareOffset (text.drop first) second := by
  have hdrop : (text.drop first).take second ++ (text.drop first).drop second = text.drop first :=
    List.take_append_drop _ _
  rw [bareOffset, List.take_add, ← List.drop_drop, bareBefore_append, hdrop, List.length_append]
  rfl

/-- The first bytes of the text all stay. -/
def KeepsFirst (text : Bytes) (length : Nat) : Prop :=
  bareEnds text = text.take length ++ bareEnds (text.drop length)

namespace KeepsFirst

variable {text : Bytes} {length : Nat}

theorem of_not_mem (h : carriageReturn ∉ text.take length) : KeepsFirst text length := by
  rw [KeepsFirst, bareEnds_eq text length, bareBefore_of_not_mem h]

/-- The bytes up to one that stays and does not end in a carriage return all stay. -/
theorem one {b : UInt8} {rest : Bytes}
    (h : ¬(b = carriageReturn ∧ rest.head? = some Byte.newline)) : KeepsFirst (b :: rest) 1 :=
  bareEnds_cons h

theorem bareBefore_eq (h : KeepsFirst text length) :
    bareBefore (text.drop length) (text.take length) = text.take length := by
  rw [KeepsFirst, bareEnds_eq text length] at h
  exact List.append_cancel_right h

theorem take_eq (h : KeepsFirst text length) : (bareEnds text).take length = text.take length := by
  rw [KeepsFirst] at h
  rw [h]
  by_cases hlength : length ≤ text.length
  · rw [List.take_left' (List.length_take_of_le hlength)]
  · rw [List.drop_eq_nil_of_le (by omega), bareEnds_nil, List.append_nil, List.take_take,
      Nat.min_self]

theorem drop_eq (h : KeepsFirst text length) :
    (bareEnds text).drop length = bareEnds (text.drop length) := by
  rw [KeepsFirst] at h
  rw [h]
  by_cases hlength : length ≤ text.length
  · rw [List.drop_left' (List.length_take_of_le hlength)]
  · rw [List.drop_eq_nil_of_le (Nat.le_of_not_le hlength), bareEnds_nil, List.append_nil,
      List.drop_take, Nat.sub_self, List.take_zero]

theorem bareOffset_eq (h : KeepsFirst text length) (hlength : length ≤ text.length) :
    bareOffset text length = length := by
  rw [bareOffset, h.bareBefore_eq, List.length_take_of_le hlength]

end KeepsFirst

/-- No backslash stands directly before a line end of two bytes. -/
def NoEscapedEnd (text : Bytes) : Prop :=
  ¬[Byte.backslash, carriageReturn, Byte.newline] <:+: text

instance (text : Bytes) : Decidable (NoEscapedEnd text) := inferInstanceAs (Decidable (¬_ <:+: _))

theorem NoEscapedEnd.drop {text : Bytes} (h : NoEscapedEnd text) (length : Nat) :
    NoEscapedEnd (text.drop length) :=
  fun hin => h (hin.trans (List.drop_suffix length text).isInfix)

theorem NoEscapedEnd.tail {b : UInt8} {rest : Bytes} (h : NoEscapedEnd (b :: rest)) :
    NoEscapedEnd rest := h.drop 1

/-- What is escaped stays. -/
theorem NoEscapedEnd.keepsFirst {rest : Bytes} (h : NoEscapedEnd (Byte.backslash :: rest)) :
    KeepsFirst (Byte.backslash :: rest) 2 := by
  have hstays : ¬(Byte.backslash = carriageReturn ∧ rest.head? = some Byte.newline) :=
    fun hreturn => absurd hreturn.1 (by decide)
  rw [KeepsFirst, bareEnds_cons hstays]
  cases rest with
  | nil => rfl
  | cons c tail =>
    rcases bareEnds_cases c tail with ⟨behind, rfl, rfl⟩ | hstays
    · exact absurd (List.prefix_append _ behind).isInfix h
    · rw [bareEnds_cons hstays]
      rfl

end DebugSweep.Text
