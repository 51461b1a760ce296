import DebugSweep.Proofs.Sweep.Turns
import DebugSweep.Report.Lines

/-!
# A sweep accounts for every entry

Whatever fails on the way, a sweep comes to its end with one outcome for each entry, and the
observer, the log, the totals and the report all tell of the same outcomes (`Accounted`). The totals
are right for any outcomes that are recorded (`Summary.Balanced`), as long as what they report as
removed fits a machine word; that nothing but cleaning removes statements is a fact about the
outcomes of a sweep.
-/

namespace DebugSweep

/-- The texts of the warnings among records. -/
def warnings (records : List LogRecord) : List String :=
  (records.filter (·.level == .warn)).map (·.text)

theorem warnings_append (first second : List LogRecord) :
    warnings (first ++ second) = warnings first ++ warnings second := by
  simp only [warnings, List.filter_append, List.map_append]

/-- The totals of a summary are those of its outcomes, where what is removed fits a word. -/
structure Summary.Balanced (summary : Summary) : Prop where
  all : summary.processed + summary.failed = summary.outcomes.length
  failed : summary.failed = summary.failures.length
  modified : summary.modified = summary.outcomes.countP (·.status == .cleaned)
  excluded : summary.excluded = summary.outcomes.countP (·.status == .excluded)
  removed : reported summary.outcomes < wordSize → summary.removed = reported summary.outcomes

/-- Recorded outcomes have their totals, whatever they say. -/
theorem Summary.balanced_withAll (root : Path) (strategy : Strip.Strategy) (dryRun : Bool)
    (outcomes : List Outcome) : ((empty root strategy dryRun).withAll outcomes).Balanced := by
  have hall : outcomes.countP (·.status != .failed) + outcomes.countP (·.status == .failed) =
      outcomes.length := by
    rw [outcomes.length_eq_countP_add_countP (·.status != .failed)]
    congr 1
    exact List.countP_congr fun outcome _ => by simp
  constructor
  · simpa only [withAll, empty, Nat.zero_add, List.nil_append] using hall
  · simp only [withAll, empty, failures, Nat.zero_add, List.nil_append,
      List.countP_eq_length_filter]
  · simp only [withAll, empty, Nat.zero_add, List.nil_append]
  · simp only [withAll, empty, Nat.zero_add, List.nil_append]
  · intro hfits
    exact (removed_withAll_empty root strategy dryRun outcomes).trans (Nat.mod_eq_of_lt hfits)

namespace Report

/-- How failures are announced, where there are any. -/
def announcement (failed : Nat) : List String :=
  if failed = 0 then [] else [s!"❌ {failed} file(s) could not be processed:"]

/-- Between the totals and the advice the lines announce the failures by their number, where there
are any, and then name the place of each, in order. -/
def ListsFailures (summary : Summary) (lines : List String) : Prop :=
  ∃ totals places advice, lines = totals ++ (announcement summary.failed ++ places) ++ advice ∧
    totals.length = 3 ∧ places = (summary.failures.map fun outcome => s!"  {outcome.path}") ∧
    places.length = summary.failed ∧ advice.length = if summary.dryRun then 4 else 3

/-- The closing block lists the failures. -/
theorem listsFailures_closingLines {summary : Summary} (h : summary.Balanced) :
    ListsFailures summary (closingLines summary) := by
  have hlines : failureLines summary = announcement summary.failed ++
      summary.failures.map fun outcome => s!"  {outcome.path}" := by
    rw [failureLines, announcement]
    split
    · rename_i hnone
      have hfailures : summary.failures = [] := by rw [← List.length_eq_zero_iff, ← h.failed, hnone]
      rw [hfailures]
      rfl
    · rfl
  have hplaces : (summary.failures.map fun outcome => s!"  {outcome.path}").length =
      summary.failed := by
    rw [List.length_map, h.failed]
  rw [ListsFailures, closingLines, hlines, List.append_assoc (_ ++ (_ ++ _))]
  refine ⟨_, _, _, rfl, rfl, rfl, hplaces, ?_⟩
  split <;> rfl

end Report

namespace Cleaner

/-- What is logged as a warning in a turn is the error of its outcome, if it fails. -/
theorem warnings_recordsAt (cleaner : Cleaner) (root : Path) (turn : Turn) :
    (warnings (cleaner.recordsAt root turn)).map some =
      ([cleaner.outcomeAt root turn].filter (·.status == .failed)).map (·.error) := by
  obtain ⟨tree, entry⟩ := turn
  cases entry with
  | error error => rfl
  | ok path =>
    simp only [recordsAt, outcomeAt, outcomeOf, handle, clean]
    split
    · rfl
    · rcases cleaner.stripFile (Session.start tree).tree path with error | ⟨tree, _ | removed⟩ <;>
        rfl

/-- What is logged as warnings in turns are the errors of the outcomes that fail. -/
theorem warnings_turns (cleaner : Cleaner) (root : Path) (turns : List Turn) :
    (warnings (turns.flatMap (cleaner.recordsAt root))).map some =
      ((turns.map (cleaner.outcomeAt root)).filter (·.status == .failed)).map (·.error) := by
  induction turns with
  | nil => rfl
  | cons turn turns ih =>
    rw [List.flatMap_cons, warnings_append, List.map_append, warnings_recordsAt, ih,
      ← List.map_append, ← List.filter_append, List.singleton_append, ← List.map_cons]

/-- Nothing but cleaning a file removes statements. -/
theorem removed_outcomeAt {cleaner : Cleaner} {root : Path} {turn : Turn}
    (h : (cleaner.outcomeAt root turn).status ≠ .cleaned) :
    (cleaner.outcomeAt root turn).removed = 0 := by
  obtain ⟨tree, entry⟩ := turn
  cases entry with
  | error error => rfl
  | ok path =>
    rw [outcomeAt, outcomeOf_ok] at h ⊢
    split_ifs at h ⊢ with hexcludes
    · rfl
    · split at h
      · exact absurd rfl h
      · rfl
      · rfl

/-- The statements removed in turns are those of the files that are cleaned. -/
theorem reported_turns (cleaner : Cleaner) (root : Path) (turns : List Turn) :
    Summary.reported (turns.map (cleaner.outcomeAt root)) =
      ((turns.map (cleaner.outcomeAt root)).map (·.removed)).sum := by
  induction turns with
  | nil => rfl
  | cons turn turns ih =>
    rw [List.map_cons, List.map_cons, List.sum_cons]
    by_cases hstatus : (cleaner.outcomeAt root turn).status = .cleaned
    · rw [Summary.reported_cons_of_cleaned hstatus, ih]
    · rw [Summary.reported_cons_of_not_cleaned hstatus, removed_outcomeAt hstatus, Nat.zero_add, ih]

end Cleaner

/-- The outcome is one of this entry: of the task with its path, or the failure of a place that the
walk could not look at. -/
def AccountsFor (root : Path) : Entry → Outcome → Prop
  | .ok path, outcome => outcome.path = path
  | .error error, outcome => outcome = .failed (error.path?.getD root) error

/-- The outcome of a turn is one of its entry. -/
theorem Cleaner.accountsFor_outcomeAt (cleaner : Cleaner) (root : Path) (turn : Turn) :
    AccountsFor root turn.entry (cleaner.outcomeAt root turn) := by
  obtain ⟨tree, entry⟩ := turn
  cases entry with
  | error error => exact rfl
  | ok path =>
    rw [AccountsFor, outcomeAt, outcomeOf_ok]
    split_ifs
    · rfl
    · split <;> rfl

variable {ω : Type} (observe : ω → Outcome → ω)

/-- What a sweep leaves behind accounts for its entries: there is one outcome for each, in their
order, the observer has seen these, the failed ones are what has been warned of and what the report
lists, and the totals are right. Where the statements removed in all fit a word, their number is the
total, and checked additions give the same summary. -/
structure Accounted (root : Path) (entries : List Entry) (session : Session) (seen : ω)
    (progress : Progress ω) : Prop where
  outcomes : List.Forall₂ (AccountsFor root) entries progress.summary.outcomes
  observed : progress.seen = progress.summary.outcomes.foldl observe seen
  warned : ∃ records, progress.session.log = session.log ++ records ∧
    (warnings records).map some = progress.summary.failures.map (·.error)
  balanced : progress.summary.Balanced
  removed : (progress.summary.outcomes.map (·.removed)).sum < wordSize →
    progress.summary.removed = (progress.summary.outcomes.map (·.removed)).sum
  checked : (progress.summary.outcomes.map (·.removed)).sum < wordSize →
    progress.summary.outcomes.foldlM Summary.record?
      (.empty root progress.summary.strategy progress.summary.dryRun) = some progress.summary
  listed : Report.ListsFailures progress.summary (Report.closingLines progress.summary)

/-- A sweep over entries accounts for them. -/
theorem Cleaner.accounted_process (cleaner : Cleaner) (root : Path) (entries : List Entry)
    (session : Session) (seen : ω) :
    Accounted observe root entries session seen
      (cleaner.process observe root entries session seen) := by
  have hbalanced := Summary.balanced_withAll root cleaner.strategy cleaner.dryRun
    ((cleaner.turns session.tree entries).map (cleaner.outcomeAt root))
  have houtcomes : List.Forall₂ (AccountsFor root) entries
      ((cleaner.turns session.tree entries).map (cleaner.outcomeAt root)) := by
    nth_rewrite 1 [← cleaner.map_entry_turns session.tree entries]
    rw [List.forall₂_map_left_iff, List.forall₂_map_right_iff, List.forall₂_same]
    exact fun turn _ => cleaner.accountsFor_outcomeAt root turn
  have hreported := cleaner.reported_turns root (cleaner.turns session.tree entries)
  rw [cleaner.process_eq_turns observe root entries session seen]
  refine ⟨houtcomes, rfl, ⟨_, List.append_assoc .., ?_⟩, hbalanced, fun hfits => ?_,
    fun hfits => ?_, Report.listsFailures_closingLines hbalanced⟩
  · rw [warnings_append, List.map_append]
    exact cleaner.warnings_turns root _
  · exact (hbalanced.removed (hreported.trans_lt hfits)).trans hreported
  · exact (Summary.foldlM_record?_empty ..).trans (if_pos (hreported.trans_lt hfits))

end DebugSweep
