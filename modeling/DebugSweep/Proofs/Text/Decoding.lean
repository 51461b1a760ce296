import Mathlib.Tactic.SplitIfs
import DebugSweep.Proofs.Text.Encoding

/-!
# What is read from UTF-8 is what it writes

The ranges in which the bytes of a character may lie leave one way to write it, so the characters
read from UTF-8 are written by the very bytes they were read from (`encode_of_decode?`). Conversely
the bytes that write a character lie in these ranges, so every text that is written can be read
(`decode?_encode`).
-/

namespace DebugSweep.Utf8

/-- A byte that may follow the first of a character. -/
def IsTail (b : UInt8) : Prop := 0x80 ≤ b.toNat ∧ b.toNat ≤ 0xBF

section Written

variable {a b c d : UInt8}

theorem ofNat_eq_of_toNat {n : Nat} (h : n = b.toNat) : UInt8.ofNat n = b := by
  rw [h, UInt8.ofNat_toNat]

/-- The code point of a character that has one. -/
theorem val_ofNat {n : Nat} (h : n.isValidChar) : (Char.ofNat n).val.toNat = n := by
  rw [Char.ofNat, dif_pos h]
  rfl

/-- A character of one byte. -/
theorem utf8EncodeChar_one (ha : a.toNat < 0x80) :
    String.utf8EncodeChar (Char.ofNat a.toNat) = [a] := by
  rw [String.utf8EncodeChar, val_ofNat (.inl (by omega)), if_pos (by omega), UInt8.ofNat_toNat]

/-- A character of two bytes. -/
theorem utf8EncodeChar_two (ha : 0xC2 ≤ a.toNat ∧ a.toNat < 0xE0) (hb : IsTail b) :
    String.utf8EncodeChar (Char.ofNat ((a.toNat - 0xC0) * 64 + (b.toNat - 0x80))) = [a, b] := by
  obtain ⟨hlow, hhigh⟩ := hb
  rw [String.utf8EncodeChar, val_ofNat (.inl (by omega)), if_neg (by omega), if_pos (by omega),
    ofNat_eq_of_toNat (b := a) (by omega), ofNat_eq_of_toNat (b := b) (by omega)]

/-- A character of three bytes. It could not be written shorter and is no surrogate. -/
theorem utf8EncodeChar_three (ha : 0xE0 ≤ a.toNat ∧ a.toNat < 0xF0) (hb : IsTail b)
    (hlong : a.toNat = 0xE0 → 0xA0 ≤ b.toNat) (hplain : a.toNat = 0xED → b.toNat ≤ 0x9F)
    (hc : IsTail c) :
    String.utf8EncodeChar
      (Char.ofNat (((a.toNat - 0xE0) * 64 + (b.toNat - 0x80)) * 64 + (c.toNat - 0x80))) =
        [a, b, c] := by
  obtain ⟨hlow, hhigh⟩ := hb
  obtain ⟨hlow', hhigh'⟩ := hc
  have hvalid :
      (((a.toNat - 0xE0) * 64 + (b.toNat - 0x80)) * 64 + (c.toNat - 0x80)).isValidChar := by
    unfold Nat.isValidChar
    omega
  rw [String.utf8EncodeChar, val_ofNat hvalid, if_neg (by omega), if_neg (by omega),
    if_pos (by omega), ofNat_eq_of_toNat (b := a) (by omega), ofNat_eq_of_toNat (b := b) (by omega),
    ofNat_eq_of_toNat (b := c) (by omega)]

/-- A character of four bytes. It could not be written shorter and is not beyond the last one. -/
theorem utf8EncodeChar_four (ha : 0xF0 ≤ a.toNat ∧ a.toNat < 0xF5) (hb : IsTail b)
    (hlong : a.toNat = 0xF0 → 0x90 ≤ b.toNat) (hlast : a.toNat = 0xF4 → b.toNat ≤ 0x8F)
    (hc : IsTail c) (hd : IsTail d) :
    String.utf8EncodeChar
      (Char.ofNat ((((a.toNat - 0xF0) * 64 + (b.toNat - 0x80)) * 64 + (c.toNat - 0x80)) * 64 +
        (d.toNat - 0x80))) = [a, b, c, d] := by
  obtain ⟨hlow, hhigh⟩ := hb
  obtain ⟨hlow', hhigh'⟩ := hc
  obtain ⟨hlow'', hhigh''⟩ := hd
  have hvalid : ((((a.toNat - 0xF0) * 64 + (b.toNat - 0x80)) * 64 + (c.toNat - 0x80)) * 64 +
      (d.toNat - 0x80)).isValidChar := by
    unfold Nat.isValidChar
    omega
  rw [String.utf8EncodeChar, val_ofNat hvalid, if_neg (by omega), if_neg (by omega),
    if_neg (by omega), ofNat_eq_of_toNat (b := a) (by omega), ofNat_eq_of_toNat (b := b) (by omega),
    ofNat_eq_of_toNat (b := c) (by omega), ofNat_eq_of_toNat (b := d) (by omega)]

end Written

section Ranges

variable {a b : UInt8}

theorem isTail_iff : IsTail b ↔ 0x80 ≤ b ∧ b ≤ 0xBF := Iff.rfl

/-- A byte after a first one of three leaves out what could be written shorter, and surrogates. -/
theorem isTail_of_three (h : (if a = 0xE0 then 0xA0 else 0x80) ≤ b ∧
    b ≤ if a = 0xED then 0x9F else 0xBF) :
    IsTail b ∧ (a.toNat = 0xE0 → 0xA0 ≤ b.toNat) ∧ (a.toNat = 0xED → b.toNat ≤ 0x9F) := by
  rw [IsTail]
  split_ifs at h <;>
    simp only [UInt8.le_iff_toNat_le, ← UInt8.toNat_inj, UInt8.reduceToNat] at * <;> omega

/-- A byte after a first one of four leaves out what could be written shorter, and what lies beyond
the last character. -/
theorem isTail_of_four (h : (if a = 0xF0 then 0x90 else 0x80) ≤ b ∧
    b ≤ if a = 0xF4 then 0x8F else 0xBF) :
    IsTail b ∧ (a.toNat = 0xF0 → 0x90 ≤ b.toNat) ∧ (a.toNat = 0xF4 → b.toNat ≤ 0x8F) := by
  rw [IsTail]
  split_ifs at h <;>
    simp only [UInt8.le_iff_toNat_le, ← UInt8.toNat_inj, UInt8.reduceToNat] at * <;> omega

end Ranges

/-- The bytes that have been read of a character that has begun: the first byte, or the first and a
second one in the range that the first leaves it, or those and a third. -/
inductive Begun.Passed : Bytes → Begun → Prop where
  | two {a : UInt8} (ha : 0xC2 ≤ a.toNat ∧ a.toNat < 0xE0) :
    Passed [a] ⟨1, 0x80, 0xBF, a.toNat - 0xC0⟩
  | three {a : UInt8} (ha : 0xE0 ≤ a.toNat ∧ a.toNat < 0xF0) :
    Passed [a]
      ⟨2, if a = 0xE0 then 0xA0 else 0x80, if a = 0xED then 0x9F else 0xBF, a.toNat - 0xE0⟩
  | threeSecond {a b : UInt8} (ha : 0xE0 ≤ a.toNat ∧ a.toNat < 0xF0) (hb : IsTail b)
    (hlong : a.toNat = 0xE0 → 0xA0 ≤ b.toNat) (hplain : a.toNat = 0xED → b.toNat ≤ 0x9F) :
    Passed [a, b] ⟨1, 0x80, 0xBF, (a.toNat - 0xE0) * 64 + (b.toNat - 0x80)⟩
  | four {a : UInt8} (ha : 0xF0 ≤ a.toNat ∧ a.toNat < 0xF5) :
    Passed [a]
      ⟨3, if a = 0xF0 then 0x90 else 0x80, if a = 0xF4 then 0x8F else 0xBF, a.toNat - 0xF0⟩
  | fourSecond {a b : UInt8} (ha : 0xF0 ≤ a.toNat ∧ a.toNat < 0xF5) (hb : IsTail b)
    (hlong : a.toNat = 0xF0 → 0x90 ≤ b.toNat) (hlast : a.toNat = 0xF4 → b.toNat ≤ 0x8F) :
    Passed [a, b] ⟨2, 0x80, 0xBF, (a.toNat - 0xF0) * 64 + (b.toNat - 0x80)⟩
  | fourThird {a b c : UInt8} (ha : 0xF0 ≤ a.toNat ∧ a.toNat < 0xF5) (hb : IsTail b)
    (hlong : a.toNat = 0xF0 → 0x90 ≤ b.toNat) (hlast : a.toNat = 0xF4 → b.toNat ≤ 0x8F)
    (hc : IsTail c) :
    Passed [a, b, c]
      ⟨1, 0x80, 0xBF, ((a.toNat - 0xF0) * 64 + (b.toNat - 0x80)) * 64 + (c.toNat - 0x80)⟩

/-- A first byte that owes more has been read. -/
theorem passed_of_first {a : UInt8} {begun : Begun} (h : first a = .begun begun) :
    Begun.Passed [a] begun := by
  rw [first] at h
  simp only [UInt8.lt_iff_toNat_lt, UInt8.reduceToNat] at h
  -- one range of first bytes after the other
  split at h
  · cases h
  split at h
  · cases h
  split at h
  · cases h
    exact .two (by omega)
  split at h
  · cases h
    exact .three (by omega)
  split at h
  · cases h
    exact .four (by omega)
  · cases h

namespace Begun.Passed

variable {passed : Bytes} {begun : Begun} {b : UInt8}

/-- A byte that goes on with a character and owes more has been read. -/
theorem next {more : Begun} (h : Begun.Passed passed begun) (hb : begun.next b = .begun more) :
    Begun.Passed (passed ++ [b]) more := by
  rw [Begun.next] at hb
  split_ifs at hb with hrange howed
  obtain rfl := Reading.begun.inj hb
  cases h with
  | two ha => exact absurd (Nat.le_refl 1) howed
  | threeSecond ha => exact absurd (Nat.le_refl 1) howed
  | fourThird ha => exact absurd (Nat.le_refl 1) howed
  | three ha =>
    obtain ⟨htail, hlong, hplain⟩ := isTail_of_three hrange
    exact .threeSecond ha htail hlong hplain
  | four ha =>
    obtain ⟨htail, hlong, hlast⟩ := isTail_of_four hrange
    exact .fourSecond ha htail hlong hlast
  | fourSecond ha htail hlong hlast => exact .fourThird ha htail hlong hlast (isTail_iff.mpr hrange)

/-- A character is written by the bytes it has been read from. -/
theorem utf8EncodeChar_eq (h : Begun.Passed passed begun) {c : Char}
    (hb : begun.next b = .complete c) : String.utf8EncodeChar c = passed ++ [b] := by
  rw [Begun.next] at hb
  split_ifs at hb with hrange howed
  obtain rfl := Reading.complete.inj hb
  cases h with
  | two ha => exact utf8EncodeChar_two ha (isTail_iff.mpr hrange)
  | threeSecond ha htail hlong hplain =>
    exact utf8EncodeChar_three ha htail hlong hplain (isTail_iff.mpr hrange)
  | fourThird ha htail hlong hlast htail' =>
    exact utf8EncodeChar_four ha htail hlong hlast htail' (isTail_iff.mpr hrange)
  | three ha => exact absurd (show 2 ≤ 1 from howed) (by decide)
  | four ha => exact absurd (show 3 ≤ 1 from howed) (by decide)
  | fourSecond ha => exact absurd (show 2 ≤ 1 from howed) (by decide)

end Begun.Passed

/-- The bytes that have been read of a character, if one has begun. -/
def PassedBy : Option Begun → Bytes → Prop
  | none, passed => passed = []
  | some begun, passed => Begun.Passed passed begun

section Read

variable {state : Option Begun} {passed : Bytes} {b : UInt8}

theorem PassedBy.of_begun (h : PassedBy state passed) {begun : Begun}
    (hb : state.elim (first b) (·.next b) = .begun begun) :
    PassedBy (some begun) (passed ++ [b]) := by
  cases state with
  | none =>
    obtain rfl : passed = [] := h
    exact passed_of_first hb
  | some before => exact Begun.Passed.next h hb

theorem PassedBy.utf8EncodeChar_eq (h : PassedBy state passed) {c : Char}
    (hb : state.elim (first b) (·.next b) = .complete c) :
    String.utf8EncodeChar c = passed ++ [b] := by
  cases state with
  | none =>
    obtain rfl : passed = [] := h
    rw [Option.elim_none, first] at hb
    split_ifs at hb with hascii
    obtain rfl := Reading.complete.inj hb
    exact utf8EncodeChar_one hascii
  | some before => exact Begun.Passed.utf8EncodeChar_eq h hb

theorem unitsFrom_of_complete {c : Char} (hb : state.elim (first b) (·.next b) = .complete c)
    (rest : Bytes) : unitsFrom state (b :: rest) = some c :: unitsFrom none rest := by
  cases state with
  | none =>
    rw [Option.elim_none] at hb
    rw [unitsFrom, hb]
  | some before =>
    rw [Option.elim_some] at hb
    rw [unitsFrom, hb]

theorem unitsFrom_of_begun {begun : Begun} (hb : state.elim (first b) (·.next b) = .begun begun)
    (rest : Bytes) : unitsFrom state (b :: rest) = unitsFrom (some begun) rest := by
  cases state with
  | none =>
    rw [Option.elim_none] at hb
    rw [unitsFrom, hb]
  | some before =>
    rw [Option.elim_some] at hb
    rw [unitsFrom, hb]

end Read

/-- The characters read from UTF-8 are written by it, with what had been read of the first one. -/
theorem encode_unitsFrom {state : Option Begun} {passed bytes : Bytes}
    (hstate : PassedBy state passed) (h : isValidFrom state bytes = true) :
    encode ((unitsFrom state bytes).filterMap id) = passed ++ bytes := by
  induction bytes generalizing state passed with
  | nil =>
    cases state with
    | none =>
      obtain rfl : passed = [] := hstate
      rfl
    | some begun => cases h
  | cons b rest ih =>
    rw [isValidFrom] at h
    cases hread : state.elim (first b) (·.next b) with
    | complete c =>
      rw [hread] at h
      have hnone : PassedBy none [] := rfl
      have hrest := ih hnone h
      have hcons : (some c :: unitsFrom none rest).filterMap id =
          c :: (unitsFrom none rest).filterMap id := rfl
      rw [unitsFrom_of_complete hread, hcons, encode_cons, hstate.utf8EncodeChar_eq hread, hrest,
        List.append_assoc]
      rfl
    | begun begun =>
      rw [hread] at h
      rw [unitsFrom_of_begun hread, ih (hstate.of_begun hread) h, List.append_assoc,
        List.singleton_append]
    | refused =>
      rw [hread] at h
      cases h

/-- What is read from UTF-8 is written by it. -/
theorem encode_of_decode? {bytes : Bytes} {text : List Char} (h : decode? bytes = some text) :
    encode text = bytes := by
  rw [decode?] at h
  split_ifs at h with hvalid
  cases h
  have hnone : PassedBy none [] := rfl
  exact encode_unitsFrom hnone hvalid

section Begins

variable {a b : UInt8}

/-- A first byte of two. -/
theorem first_of_two (ha : 0xC2 ≤ a.toNat ∧ a.toNat < 0xE0) :
    first a = .begun ⟨1, 0x80, 0xBF, a.toNat - 0xC0⟩ := by
  simp only [first, UInt8.lt_iff_toNat_lt, UInt8.reduceToNat]
  rw [if_neg (by omega), if_neg (by omega), if_pos (by omega)]

/-- A first byte of three. -/
theorem first_of_three (ha : 0xE0 ≤ a.toNat ∧ a.toNat < 0xF0) :
    first a = .begun
      ⟨2, if a = 0xE0 then 0xA0 else 0x80, if a = 0xED then 0x9F else 0xBF, a.toNat - 0xE0⟩ := by
  simp only [first, UInt8.lt_iff_toNat_lt, UInt8.reduceToNat]
  rw [if_neg (by omega), if_neg (by omega), if_neg (by omega), if_pos (by omega)]

/-- A first byte of four. -/
theorem first_of_four (ha : 0xF0 ≤ a.toNat ∧ a.toNat < 0xF5) :
    first a = .begun
      ⟨3, if a = 0xF0 then 0x90 else 0x80, if a = 0xF4 then 0x8F else 0xBF, a.toNat - 0xF0⟩ := by
  simp only [first, UInt8.lt_iff_toNat_lt, UInt8.reduceToNat]
  rw [if_neg (by omega), if_neg (by omega), if_neg (by omega), if_neg (by omega),
    if_pos (by omega)]

end Begins

/-- The bytes complete the character, read after a character has begun. -/
inductive Completes : Option Begun → Bytes → Char → Prop where
  | last {state : Option Begun} {b : UInt8} {c : Char}
    (hb : state.elim (first b) (·.next b) = .complete c) : Completes state [b] c
  | more {state : Option Begun} {b : UInt8} {begun : Begun} {rest : Bytes} {c : Char}
    (hb : state.elim (first b) (·.next b) = .begun begun) (hrest : Completes (some begun) rest c) :
    Completes state (b :: rest) c

/-- Bytes that complete a character are read as it. -/
theorem Completes.unitsFrom_append {state : Option Begun} {bytes : Bytes} {c : Char}
    (h : Completes state bytes c) (rest : Bytes) :
    unitsFrom state (bytes ++ rest) = some c :: unitsFrom none rest := by
  induction h with
  | last hb => exact unitsFrom_of_complete hb rest
  | more hb hrest ih => exact (unitsFrom_of_begun hb _).trans ih

/-- The last byte of a character. -/
theorem completes_last {low high b : UInt8} {bits : Nat} {c : Char} (hb : low ≤ b ∧ b ≤ high)
    (hbits : bits * 64 + (b.toNat - 0x80) = c.toNat) :
    Completes (some ⟨1, low, high, bits⟩) [b] c := by
  refine .last ?_
  rw [Option.elim_some, Begun.next, if_pos hb]
  simp only [Nat.le_refl, if_true]
  rw [hbits, Char.ofNat_toNat]

/-- A byte of a character that is neither its first nor its last. -/
theorem completes_more {owed : Nat} {low high b : UInt8} {bits : Nat} {rest : Bytes} {c : Char}
    (hb : low ≤ b ∧ b ≤ high)
    (hrest : Completes (some ⟨owed + 1, 0x80, 0xBF, bits * 64 + (b.toNat - 0x80)⟩) rest c) :
    Completes (some ⟨owed + 2, low, high, bits⟩) (b :: rest) c := by
  refine .more ?_ hrest
  rw [Option.elim_some, Begun.next, if_pos hb]
  simp only
  rw [if_neg (by omega), Nat.add_sub_assoc (by omega)]

/-- The lower six bits of a number make a byte that may follow the first of a character. -/
theorem toNat_tail (n : Nat) : (UInt8.ofNat (n % 64 + 128)).toNat = n % 64 + 128 := by
  rw [UInt8.toNat_ofNat']
  omega

/-- What writes a character is read as it. -/
theorem completes_utf8EncodeChar (c : Char) : Completes none (String.utf8EncodeChar c) c := by
  have hvalid : c.val.toNat < 0xD800 ∨ 0xDFFF < c.val.toNat ∧ c.val.toNat < 0x110000 := c.valid
  have hcode : c.toNat = c.val.toNat := rfl
  rw [String.utf8EncodeChar]
  generalize c.val.toNat = v at hvalid hcode
  have hbits := toNat_tail v
  have hbits' := toNat_tail (v / 64)
  have hbits'' := toNat_tail (v / 4096)
  -- one case for each number of bytes
  split_ifs with hone htwo hthree
  · have hb : (UInt8.ofNat v).toNat = v := by
      rw [UInt8.toNat_ofNat']
      omega
    have hlt : UInt8.ofNat v < 0x80 := by
      rw [UInt8.lt_iff_toNat_lt, hb]
      exact Nat.lt_succ_of_le hone
    refine .last ?_
    rw [Option.elim_none, first, if_pos hlt, hb, ← hcode, Char.ofNat_toNat]
  · have ha : (UInt8.ofNat (v / 64 % 32 + 192)).toNat = v / 64 % 32 + 192 := by
      rw [UInt8.toNat_ofNat']
      omega
    refine .more (first_of_two (by omega)) (completes_last (isTail_iff.mp ?_) (by omega))
    exact ⟨by omega, by omega⟩
  · have ha : (UInt8.ofNat (v / 4096 % 16 + 224)).toNat = v / 4096 % 16 + 224 := by
      rw [UInt8.toNat_ofNat']
      omega
    refine .more (first_of_three (by omega))
      (completes_more ?_ (completes_last (isTail_iff.mp ⟨by omega, by omega⟩) (by omega)))
    split_ifs with hlong hplain <;>
      simp only [UInt8.le_iff_toNat_le, ← UInt8.toNat_inj, UInt8.reduceToNat] at * <;> omega
  · have ha : (UInt8.ofNat (v / 262144 % 8 + 240)).toNat = v / 262144 % 8 + 240 := by
      rw [UInt8.toNat_ofNat']
      omega
    refine .more (first_of_four (by omega)) (completes_more ?_ (completes_more
      (isTail_iff.mp ⟨by omega, by omega⟩)
      (completes_last (isTail_iff.mp ⟨by omega, by omega⟩) (by omega))))
    split_ifs with hlong hlast <;>
      simp only [UInt8.le_iff_toNat_le, ← UInt8.toNat_inj, UInt8.reduceToNat] at * <;> omega

/-- The characters that are written are read again. -/
theorem units_encode (text : List Char) : units (encode text) = text.map some := by
  induction text with
  | nil => rfl
  | cons c text ih =>
    rw [units, encode_cons, (completes_utf8EncodeChar c).unitsFrom_append, List.map_cons]
    exact congrArg _ ih

/-- What is written can be read, and is read as it was. -/
theorem decode?_encode (text : List Char) : decode? (encode text) = some text := by
  have hvalid : isValid (encode text) = true := by
    rw [isValid, isValidFrom_eq_all_units, ← units, units_encode]
    simp
  rw [decode?, if_pos hvalid, units_encode, List.filterMap_map]
  simp

end DebugSweep.Utf8
