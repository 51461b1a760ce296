import Mathlib.Data.List.Basic
import DebugSweep.Strip.Replacement

/-!
# Texts in which ranges have been replaced

`RangesReplaced` relates a text to what is left of it when ranges of some kind give way to the
marker, and counts the ranges. It does not say how the ranges are found, so what it implies holds of
every strategy: bytes that the marker does not hold can only become fewer, by at least as many as
the ranges hold of them, and what follows the last range stays at the end.
-/

namespace DebugSweep.Strip

/-- The second text is the first one with as many ranges of this kind replaced by the marker. -/
inductive RangesReplaced (IsRange : Bytes → Prop) : Nat → Bytes → Bytes → Prop
  | nil : RangesReplaced IsRange 0 [] []
  | kept {count : Nat} {before after : Bytes} (b : UInt8)
      (hrest : RangesReplaced IsRange count before after) :
      RangesReplaced IsRange count (b :: before) (b :: after)
  | range {count : Nat} {range before after : Bytes} (hrange : IsRange range)
      (hrest : RangesReplaced IsRange count before after) :
      RangesReplaced IsRange (count + 1) (range ++ before) (marker ++ after)

namespace RangesReplaced

variable {IsRange : Bytes → Prop} {count : Nat} {before after : Bytes}

/-- All of a text can be kept. -/
theorem refl (text : Bytes) : RangesReplaced IsRange 0 text text := by
  induction text with
  | nil => exact .nil
  | cons b text ih => exact .kept b ih

/-- Texts can be put together. -/
theorem append {count' : Nat} {before' after' : Bytes}
    (h : RangesReplaced IsRange count before after)
    (h' : RangesReplaced IsRange count' before' after') :
    RangesReplaced IsRange (count + count') (before ++ before') (after ++ after') := by
  induction h with
  | nil => rwa [Nat.zero_add]
  | kept b _ ih => exact .kept b ih
  | range hrange _ ih =>
    rw [List.append_assoc, List.append_assoc, Nat.add_right_comm]
    exact .range hrange ih

/-- Bytes can be kept in front. -/
theorem append_left (kept : Bytes) (h : RangesReplaced IsRange count before after) :
    RangesReplaced IsRange count (kept ++ before) (kept ++ after) := by
  simpa only [Nat.zero_add] using (refl kept).append h

/-- Where nothing is replaced the text stays as it is. -/
theorem eq_of_zero (h : RangesReplaced IsRange 0 before after) : after = before := by
  generalize hzero : 0 = none at h
  induction h with
  | nil => rfl
  | kept b _ ih => rw [ih hzero]
  | range => cases hzero

/-- Ranges of one kind are ranges of a wider one. -/
theorem mono {IsWider : Bytes → Prop} (hwider : ∀ range, IsRange range → IsWider range)
    (h : RangesReplaced IsRange count before after) :
    RangesReplaced IsWider count before after := by
  induction h with
  | nil => exact .nil
  | kept b _ ih => exact .kept b ih
  | range hrange _ ih => exact .range (hwider _ hrange) ih

/-- A byte that the marker does not hold occurs less often afterwards, by what every range holds of
it. -/
theorem count_add_mul_le {b : UInt8} (hmarker : b ∉ marker) {times : Nat}
    (hrange : ∀ range, IsRange range → times ≤ range.count b)
    (h : RangesReplaced IsRange count before after) :
    after.count b + times * count ≤ before.count b := by
  have hnone := List.count_eq_zero.mpr hmarker
  induction h with
  | nil => simp
  | kept c _ ih =>
    rw [List.count_cons, List.count_cons]
    omega
  | @range count range before after hfirst _ ih =>
    have hfirst := hrange range hfirst
    rw [List.count_append, List.count_append, Nat.mul_succ]
    omega

/-- A text is empty if and only if nothing is left of it. -/
theorem eq_nil_iff (hrange : ∀ range, IsRange range → range ≠ [])
    (h : RangesReplaced IsRange count before after) : after = [] ↔ before = [] := by
  cases h with
  | nil => rfl
  | kept b hrest => simp
  | range hfirst hrest =>
    have hmarker : marker ≠ [] := by decide
    simp [hrange _ hfirst, hmarker]

/-- Without a byte that every range holds nothing is replaced. -/
theorem eq_of_not_mem {b : UInt8} (hrange : ∀ range, IsRange range → b ∈ range)
    (h : RangesReplaced IsRange count before after) (hb : b ∉ before) : after = before := by
  induction h with
  | nil => rfl
  | kept c _ ih => rw [ih (List.not_mem_of_not_mem_cons hb)]
  | range hfirst _ _ => exact absurd (List.mem_append_left _ (hrange _ hfirst)) hb

/-- No range ends inside text without the byte that ends all ranges, so such text at the end of a
text stays there. -/
theorem suffix {b : UInt8} (hrange : ∀ range, IsRange range → range.getLast? = some b)
    {text : Bytes} (htext : b ∉ text) (h : RangesReplaced IsRange count before after)
    (hsuffix : text <:+ before) : text <:+ after := by
  induction h with
  | nil => exact hsuffix
  | @kept count before after c hrest ih =>
    rcases List.suffix_cons_iff.mp hsuffix with rfl | hsuffix
    · have hsame := (RangesReplaced.kept c hrest).eq_of_not_mem
        (fun range hrange' => List.mem_of_getLast? (hrange range hrange')) htext
      exact hsame ▸ List.suffix_rfl
    · exact (ih hsuffix).trans (List.suffix_cons c after)
  | @range count range before after hfirst hrest ih =>
    obtain ⟨front, rfl⟩ := List.getLast?_eq_some_iff.mp (hrange range hfirst)
    have hend : b :: before <:+ front ++ [b] ++ before := ⟨front, by simp⟩
    rcases List.suffix_or_suffix_of_suffix hsuffix hend with hshort | hlong
    · rcases List.suffix_cons_iff.mp hshort with rfl | hshort
      · exact absurd List.mem_cons_self htext
      · exact (ih hshort).trans (List.suffix_append marker after)
    · exact absurd (hlong.mem List.mem_cons_self) htext

end RangesReplaced

end DebugSweep.Strip
