import Mathlib.Data.List.Basic
import DebugSweep.Text.Utf8

/-!
# ASCII in UTF-8

An ASCII character is written by one byte, and every byte of another character is above all of
those. Text that is cut at ASCII characters can therefore be cut as characters or as bytes:
wherever the byte of an ASCII character occurs in an encoded text, the character does.
-/

namespace DebugSweep.Utf8

/-- The character is written by one byte. -/
def IsAscii (c : Char) : Prop := c.toNat < 0x80

instance (c : Char) : Decidable (IsAscii c) := inferInstanceAs (Decidable (c.toNat < 0x80))

theorem isAscii_of_all {text : List Char} (h : text.all (·.toNat < 0x80) = true) :
    ∀ c ∈ text, IsAscii c := by
  simpa [IsAscii] using h

@[simp] theorem encode_nil : encode [] = [] := rfl

@[simp] theorem encode_cons (c : Char) (text : List Char) :
    encode (c :: text) = String.utf8EncodeChar c ++ encode text := rfl

@[simp] theorem encode_append (first second : List Char) :
    encode (first ++ second) = encode first ++ encode second := List.flatMap_append

theorem utf8EncodeChar_of_isAscii {c : Char} (h : IsAscii c) :
    String.utf8EncodeChar c = [c.toUInt8] := by
  have hle : c.val.toNat ≤ 127 := Nat.le_of_lt_succ h
  simp only [String.utf8EncodeChar, if_pos hle]
  rfl

/-- The byte of an ASCII character is its code point. -/
theorem toNat_toUInt8 {c : Char} (h : IsAscii c) : c.toUInt8.toNat = c.toNat := by
  have hlt : c.val.toNat < 256 := Nat.lt_trans h (by decide)
  exact UInt32.toNat_toUInt8 c.val ▸ Nat.mod_eq_of_lt hlt

/-- ASCII characters are told apart by their bytes. -/
theorem eq_of_toUInt8_eq {c d : Char} (hc : IsAscii c) (hd : IsAscii d)
    (h : c.toUInt8 = d.toUInt8) : c = d := by
  have hcode := congrArg UInt8.toNat h
  rw [toNat_toUInt8 hc, toNat_toUInt8 hd] at hcode
  exact Char.toNat_inj.mp hcode

/-- A character outside ASCII is written by bytes outside ASCII. -/
theorem le_of_mem_utf8EncodeChar {c : Char} (h : ¬IsAscii c) {b : UInt8}
    (hb : b ∈ String.utf8EncodeChar c) : 0x80 ≤ b.toNat := by
  have hle : ¬c.val.toNat ≤ 127 := fun hle => h (Nat.lt_succ_of_le hle)
  simp only [String.utf8EncodeChar, if_neg hle] at hb
  split_ifs at hb
  · simp only [List.mem_cons, List.not_mem_nil, or_false] at hb
    rcases hb with rfl | rfl <;> (simp only [UInt8.toNat_ofNat']; omega)
  · simp only [List.mem_cons, List.not_mem_nil, or_false] at hb
    rcases hb with rfl | rfl | rfl <;> (simp only [UInt8.toNat_ofNat']; omega)
  · simp only [List.mem_cons, List.not_mem_nil, or_false] at hb
    rcases hb with rfl | rfl | rfl | rfl <;> (simp only [UInt8.toNat_ofNat']; omega)

/-- The byte of an ASCII character belongs to no other character. -/
theorem mem_utf8EncodeChar_iff {c d : Char} (hc : IsAscii c) :
    c.toUInt8 ∈ String.utf8EncodeChar d ↔ c = d := by
  constructor
  · intro h
    by_cases hd : IsAscii d
    · rw [utf8EncodeChar_of_isAscii hd, List.mem_singleton] at h
      exact eq_of_toUInt8_eq hc hd h
    · have hle := le_of_mem_utf8EncodeChar hd h
      rw [toNat_toUInt8 hc] at hle
      exact absurd hc (Nat.not_lt_of_le hle)
  · rintro rfl
    rw [utf8EncodeChar_of_isAscii hc]
    exact List.mem_singleton_self _

/-- An ASCII character occurs where its byte does. -/
theorem mem_encode_iff {c : Char} (hc : IsAscii c) {text : List Char} :
    c.toUInt8 ∈ encode text ↔ c ∈ text := by
  simp only [encode, List.mem_flatMap, mem_utf8EncodeChar_iff hc, exists_eq_right']

/-- An encoded text that is cut before and after the byte of an ASCII character is cut before and
after the character. -/
theorem exists_of_encode_eq {c : Char} (hc : IsAscii c) {text : List Char} {before after : Bytes}
    (h : encode text = before ++ c.toUInt8 :: after) :
    ∃ first second, text = first ++ c :: second ∧ encode first = before ∧
      encode second = after := by
  induction text generalizing before with
  | nil => simp at h
  | cons d text ih =>
    rw [encode_cons] at h
    rcases List.append_eq_append_iff.mp h with ⟨more, rfl, hmore⟩ | ⟨more, hchar, hmore⟩
    · obtain ⟨first, second, rfl, rfl, rfl⟩ := ih hmore
      exact ⟨d :: first, second, rfl, rfl, rfl⟩
    · cases more with
      | nil =>
        rw [List.append_nil] at hchar
        have htext : encode text = [] ++ c.toUInt8 :: after := hmore.symm
        obtain ⟨first, second, rfl, hfirst, rfl⟩ := ih htext
        exact ⟨d :: first, second, rfl, by rw [encode_cons, hfirst, List.append_nil, hchar], rfl⟩
      | cons b more =>
        rw [List.cons_append, List.cons.injEq] at hmore
        obtain ⟨rfl, hafter⟩ := hmore
        have hmem : c.toUInt8 ∈ String.utf8EncodeChar d := by
          rw [hchar]
          exact List.mem_append_right _ List.mem_cons_self
        obtain rfl := (mem_utf8EncodeChar_iff hc).mp hmem
        rw [utf8EncodeChar_of_isAscii hc] at hchar
        obtain ⟨rfl, hend⟩ := List.append_eq_singleton_iff.mp hchar.symm |>.resolve_right (by simp)
        obtain rfl := (List.cons.inj hend).2
        exact ⟨[], text, rfl, rfl, hafter.symm⟩

/-- Only the empty text is written by no bytes. -/
theorem encode_eq_nil_iff {text : List Char} : encode text = [] ↔ text = [] := by
  cases text with
  | nil => simp
  | cons c text =>
    have hlength := String.length_utf8EncodeChar c
    have hpos := c.utf8Size_pos
    simp [← List.length_eq_zero_iff]
    omega

/-- An encoded text that begins with ASCII text does so as text. -/
theorem exists_of_encode_eq_append {start : List Char} (hstart : ∀ c ∈ start, IsAscii c)
    {text : List Char} {rest : Bytes} (h : encode text = encode start ++ rest) :
    ∃ more, text = start ++ more ∧ encode more = rest := by
  induction start generalizing text with
  | nil => exact ⟨text, rfl, h⟩
  | cons c start ih =>
    have hc := hstart c List.mem_cons_self
    have htext : encode text = [] ++ c.toUInt8 :: (encode start ++ rest) := by
      rw [h, encode_cons, utf8EncodeChar_of_isAscii hc]
      rfl
    obtain ⟨first, second, rfl, hfirst, hsecond⟩ := exists_of_encode_eq hc htext
    obtain rfl := encode_eq_nil_iff.mp hfirst
    obtain ⟨more, rfl, hmore⟩ := ih (fun d hd => hstart d (List.mem_cons_of_mem _ hd)) hsecond
    exact ⟨more, rfl, hmore⟩

end DebugSweep.Utf8
