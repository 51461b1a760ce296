import Mathlib.Data.List.Infix
import DebugSweep.Text.Ascii

/-!
# Occurrences of a word in a text

A word without borders cannot stand at two places that overlap. Where such a word is put between two
texts, it therefore occurs there and wherever it occurred in one of them, and nowhere across a seam
(`offsetsOf_append`).
-/

namespace DebugSweep.Text

/-- The offsets at which a word stands in a text. -/
def offsetsOf (word text : Bytes) : List Nat :=
  (List.range text.length).filter fun offset => word.isPrefixOf (text.drop offset)

/-- The word begins with nothing that it ends with, apart from itself. -/
def Unbordered (word : Bytes) : Prop :=
  ∀ offset < word.length, word.drop offset <+: word → offset = 0

instance (word : Bytes) : Decidable (Unbordered word) :=
  inferInstanceAs (Decidable (∀ offset < word.length, _ → _))

/-- A word that is not empty occurs at an offset if and only if the text goes on with it there. -/
theorem mem_offsetsOf_iff {word text : Bytes} (hword : word ≠ []) {offset : Nat} :
    offset ∈ offsetsOf word text ↔ word <+: text.drop offset := by
  rw [offsetsOf, List.mem_filter, List.mem_range, List.isPrefixOf_iff_prefix]
  refine ⟨And.right, fun hpre => ⟨?_, hpre⟩⟩
  by_contra hbehind
  rw [List.drop_eq_nil_of_le (Nat.le_of_not_lt hbehind), List.prefix_nil] at hpre
  exact hword hpre

/-- A word that does not stand in a text has no offsets. -/
theorem offsetsOf_eq_nil {word text : Bytes} (hword : word ≠ []) (h : ¬word <:+: text) :
    offsetsOf word text = [] := by
  refine List.eq_nil_iff_forall_not_mem.mpr fun offset hoffset => h ?_
  rw [mem_offsetsOf_iff hword] at hoffset
  exact hoffset.isInfix.trans (List.drop_suffix offset text).isInfix

namespace Unbordered

variable {word : Bytes}

/-- The word stands nowhere between its own beginning and its end. -/
theorem not_prefix_drop (h : Unbordered word) (rest : Bytes) {offset : Nat} (hpos : 0 < offset)
    (hlt : offset < word.length) : ¬word <+: word.drop offset ++ rest := by
  intro hpre
  have hborder : word.drop offset <+: word :=
    List.prefix_of_prefix_length_le (List.prefix_append _ _) hpre (by simp)
  exact hpos.ne' (h offset hlt hborder)

/-- The word does not stand across the place where it begins. -/
theorem prefix_of_prefix_append (h : Unbordered word) {kept rest : Bytes} (hkept : kept ≠ [])
    (hpre : word <+: kept ++ (word ++ rest)) : word <+: kept := by
  rcases List.prefix_or_prefix_of_prefix hpre (List.prefix_append kept _) with
    hinside | ⟨border, hword⟩
  · exact hinside
  by_cases hnil : border = []
  · rw [← hword, hnil, List.append_nil]
  -- what reaches over the seam both ends the word and begins it
  have hends : word.drop kept.length = border := by rw [← hword, List.drop_left]
  have hlength := congrArg List.length hword
  rw [List.length_append] at hlength
  have hshort := List.length_pos_of_ne_nil hnil
  have hbegins := hpre
  rw [← hword, List.prefix_append_right_inj, hword] at hbegins
  have hborder : border <+: word :=
    List.prefix_of_prefix_length_le hbegins (List.prefix_append _ _) (by omega)
  have hzero := h kept.length (by omega) (hends ▸ hborder)
  exact absurd (List.length_eq_zero_iff.mp hzero) hkept

/-- The word between two texts occurs there, and elsewhere where it occurs in one of them. -/
theorem offsetsOf_append (h : Unbordered word) (hword : word ≠ []) (kept rest : Bytes) :
    offsetsOf word (kept ++ (word ++ rest)) =
      offsetsOf word kept ++
        kept.length :: (offsetsOf word rest).map (kept.length + word.length + ·) := by
  have hbefore : (List.range kept.length).filter
      (fun offset => word.isPrefixOf ((kept ++ (word ++ rest)).drop offset)) =
        offsetsOf word kept := by
    refine List.filter_congr fun offset hoffset => ?_
    rw [List.mem_range] at hoffset
    rw [Bool.eq_iff_iff, List.isPrefixOf_iff_prefix, List.isPrefixOf_iff_prefix,
      List.drop_append_of_le_length (Nat.le_of_lt hoffset)]
    refine ⟨h.prefix_of_prefix_append (by simpa using hoffset), fun hpre => ?_⟩
    exact hpre.trans (List.prefix_append _ _)
  have hinside : (List.range word.length).filter
      (fun offset => word.isPrefixOf ((word ++ rest).drop offset)) = [0] := by
    obtain ⟨length, hlength⟩ := Nat.exists_eq_succ_of_ne_zero (mt List.length_eq_zero_iff.mp hword)
    rw [hlength, List.range_succ_eq_map, List.filter_cons, if_pos (by simp), List.filter_map,
      List.filter_eq_nil_iff.mpr, List.map_nil]
    intro offset hoffset
    rw [List.mem_range] at hoffset
    rw [Function.comp_apply, List.isPrefixOf_iff_prefix,
      List.drop_append_of_le_length (by omega)]
    exact h.not_prefix_drop rest (Nat.succ_pos offset) (by omega)
  have hbehind (offset : Nat) : (kept ++ (word ++ rest)).drop (kept.length + offset) =
      (word ++ rest).drop offset := List.drop_length_add_append offset
  have hrest (offset : Nat) : (word ++ rest).drop (word.length + offset) = rest.drop offset :=
    List.drop_length_add_append offset
  rw [offsetsOf, List.length_append, List.range_add, List.filter_append, hbefore, List.filter_map,
    List.length_append, List.range_add, List.filter_append, List.filter_map]
  simp only [Function.comp_def, hbehind, hrest, hinside]
  simp [offsetsOf, Nat.add_assoc, Function.comp_def]

end Unbordered

end DebugSweep.Text
