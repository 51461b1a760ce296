import Mathlib.Algebra.GroupWithZero.Nat
import Mathlib.Algebra.BigOperators.Group.List.Basic
import DebugSweep.Sweep.Outcome

/-!
# The totals of a summary

Recording outcomes one after the other counts them by their status, and adds up what the cleaned
ones report as far as a machine word holds it: the total is their sum where it fits, and the checked
additions go through just there. The totals do not depend on the order of the outcomes.
-/

namespace DebugSweep

/-- The order in which counts are added to a total does not matter. -/
instance : RightCommutative addWord where
  right_comm total first second := by
    rw [addWord, addWord, addWord, addWord, Nat.mod_add_mod, Nat.mod_add_mod, Nat.add_right_comm]

theorem wordSize_pos : 0 < wordSize := by decide

/-- Adding counts to a total one after the other leaves the word of their sum. -/
theorem foldl_addWord {total : Nat} (h : total < wordSize) (counts : List Nat) :
    counts.foldl addWord total = (total + counts.sum) % wordSize := by
  induction counts generalizing total with
  | nil => exact (Nat.mod_eq_of_lt h).symm
  | cons count counts ih =>
    have hword : addWord total count < wordSize := Nat.mod_lt _ wordSize_pos
    rw [List.foldl_cons, ih hword, addWord, Nat.mod_add_mod, List.sum_cons, Nat.add_assoc]

namespace Summary

/-- A summary with the totals of further outcomes. -/
def withAll (summary : Summary) (outcomes : List Outcome) : Summary :=
  { summary with
    processed := summary.processed + outcomes.countP (·.status != .failed)
    modified := summary.modified + outcomes.countP (·.status == .cleaned)
    excluded := summary.excluded + outcomes.countP (·.status == .excluded)
    failed := summary.failed + outcomes.countP (·.status == .failed)
    removed :=
      ((outcomes.filter (·.status == .cleaned)).map (·.removed)).foldl addWord summary.removed
    outcomes := summary.outcomes ++ outcomes }

/-- One outcome is recorded as a list of one. -/
theorem record_eq_withAll (summary : Summary) (outcome : Outcome) :
    summary.record outcome = summary.withAll [outcome] := by
  cases hstatus : outcome.status with
  | excluded => simp [record, withAll, hstatus]
  | unchanged => simp [record, withAll, hstatus]
  | cleaned => simp [record, withAll, hstatus]
  | failed => simp [record, withAll, hstatus]

/-- The totals of lists add up. -/
theorem withAll_append (summary : Summary) (first second : List Outcome) :
    summary.withAll (first ++ second) = (summary.withAll first).withAll second := by
  simp [withAll, Nat.add_assoc]

/-- Recording outcomes one after the other gives their totals. -/
theorem foldl_record (outcomes : List Outcome) (summary : Summary) :
    outcomes.foldl record summary = summary.withAll outcomes := by
  induction outcomes generalizing summary with
  | nil => simp [withAll]
  | cons outcome outcomes ih =>
    rw [List.foldl_cons, ih, record_eq_withAll, ← withAll_append, List.singleton_append]

/-- Only the list of outcomes depends on their order. -/
theorem withAll_perm {outcomes others : List Outcome} (h : others.Perm outcomes)
    (summary : Summary) :
    summary.withAll others =
      { summary.withAll outcomes with outcomes := (summary.withAll others).outcomes } := by
  simp only [withAll, h.countP_eq, ((h.filter _).map _).foldl_eq]

/-- What cleaned outcomes report as removed. -/
def reported (outcomes : List Outcome) : Nat :=
  ((outcomes.filter (·.status == .cleaned)).map (·.removed)).sum

/-- Whatever is recorded, the total is the word of what is removed in all. -/
theorem removed_withAll_empty (root : Path) (strategy : Strip.Strategy) (dryRun : Bool)
    (outcomes : List Outcome) :
    ((empty root strategy dryRun).withAll outcomes).removed = reported outcomes % wordSize := by
  have hword : ((empty root strategy dryRun).withAll outcomes).removed =
      (0 + reported outcomes) % wordSize := foldl_addWord wordSize_pos _
  rw [hword, Nat.zero_add]

theorem reported_cons_of_cleaned {outcome : Outcome} (h : outcome.status = .cleaned)
    (outcomes : List Outcome) :
    reported (outcome :: outcomes) = outcome.removed + reported outcomes := by
  have hcleaned : (outcome.status == .cleaned) = true := beq_iff_eq.mpr h
  simp only [reported, List.filter_cons, hcleaned, if_true, List.map_cons, List.sum_cons]

theorem reported_cons_of_not_cleaned {outcome : Outcome} (h : outcome.status ≠ .cleaned)
    (outcomes : List Outcome) : reported (outcome :: outcomes) = reported outcomes := by
  have hcleaned : (outcome.status == .cleaned) = false := beq_eq_false_iff_ne.mpr h
  simp only [reported, List.filter_cons, hcleaned, Bool.false_eq_true, if_false]

/-- Checked additions go through just where what is removed in all fits a word, and then the
summary is the one that recording gives. -/
theorem foldlM_record? (outcomes : List Outcome) {summary : Summary}
    (h : summary.removed < wordSize) :
    outcomes.foldlM record? summary =
      if summary.removed + reported outcomes < wordSize then some (outcomes.foldl record summary)
      else none := by
  induction outcomes generalizing summary with
  | nil => exact (if_pos h).symm
  | cons outcome outcomes ih =>
    rw [List.foldlM_cons, List.foldl_cons, record?]
    by_cases hstatus : outcome.status = .cleaned
    · rw [reported_cons_of_cleaned hstatus]
      by_cases hfits : wordSize ≤ summary.removed + outcome.removed
      · rw [if_pos ⟨hstatus, hfits⟩, if_neg (by omega)]
        rfl
      · have hremoved : (summary.record outcome).removed = summary.removed + outcome.removed := by
          rw [record, hstatus]
          exact Nat.mod_eq_of_lt (Nat.lt_of_not_le hfits)
        rw [if_neg fun hover => hfits hover.2, Option.bind_eq_bind, Option.bind_some,
          ih (hremoved ▸ Nat.lt_of_not_le hfits), hremoved, Nat.add_assoc]
    · have hremoved : (summary.record outcome).removed = summary.removed := by
        cases hcase : outcome.status with
        | excluded => rw [record, hcase]
        | unchanged => rw [record, hcase]
        | cleaned => exact absurd hcase hstatus
        | failed => rw [record, hcase]
      rw [reported_cons_of_not_cleaned hstatus, if_neg fun hover => hstatus hover.1,
        Option.bind_eq_bind, Option.bind_some, ih (hremoved ▸ h), hremoved]

/-- Checked additions from the beginning give the totals where what is removed in all fits. -/
theorem foldlM_record?_empty (root : Path) (strategy : Strip.Strategy) (dryRun : Bool)
    (outcomes : List Outcome) :
    outcomes.foldlM record? (empty root strategy dryRun) =
      if reported outcomes < wordSize then some ((empty root strategy dryRun).withAll outcomes)
      else none := by
  have hempty : (empty root strategy dryRun).removed = 0 := rfl
  rw [foldlM_record? outcomes (hempty.trans_lt wordSize_pos), foldl_record, hempty, Nat.zero_add]

end Summary

end DebugSweep
