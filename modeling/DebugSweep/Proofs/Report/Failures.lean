import DebugSweep.Proofs.Json.Parts
import DebugSweep.Proofs.Sweep.Accounts
import DebugSweep.Report.Printing

/-!
# Which failures a report names

The report for people names the path of every failure in its closing block. The report for machines
names it as a string of its document, but there is a document only if the root and the paths of all
outcomes are UTF-8. One path that is not, be it of a file that was handled without error, and the
report is an empty line that names nothing (`sweep_names_failure_iff`).
-/

namespace DebugSweep

namespace Utf8

/-- UTF-8 is shown as it is read. -/
theorem decode?_of_isValid {bytes : Bytes} (h : isValid bytes = true) :
    decode? bytes = some (lossy bytes).toList := by
  rw [decode?, if_pos h, lossy, String.toList_ofList, Option.some.injEq]
  rw [isValid, isValidFrom_eq_all_units, List.all_eq_true] at h
  rw [← List.filterMap_eq_map]
  refine List.filterMap_congr fun unit hunit => ?_
  obtain ⟨c, rfl⟩ := Option.isSome_iff_exists.mp (h unit hunit)
  rfl

end Utf8

/-- Whether the root of a summary and the paths of its outcomes are UTF-8. -/
def Summary.IsText (summary : Summary) : Prop :=
  Utf8.isValid summary.root.bytes = true ∧
    ∀ outcome ∈ summary.outcomes, Utf8.isValid outcome.path.bytes = true

namespace Report

/-- How a path is named: as it is shown, or as a string of the document. -/
def nameIn (mode : Mode) (path : Path) : List Char :=
  match mode with
  | .human => path.display.toList
  | .json => Json.quote path.display

/-- The output names the path. -/
def Names (mode : Mode) (output : String) (path : Path) : Prop :=
  nameIn mode path <:+: output.toList

instance (mode : Mode) (output : String) (path : Path) : Decidable (Names mode output path) :=
  inferInstanceAs (Decidable (_ <:+: _))

/-- A path can stand in a document if it is UTF-8, and does so as it is shown. -/
theorem pathJson?_eq (path : Path) :
    pathJson? path = if Utf8.isValid path.bytes then some (.string path.display) else none := by
  rw [pathJson?]
  split
  · rename_i hvalid
    rw [Utf8.decode?_of_isValid hvalid, Option.map_some, String.ofList_toList, Path.display]
  · rename_i hinvalid
    rw [Utf8.decode?, if_neg hinvalid]
    rfl

/-- An outcome whose path is UTF-8 is an object in which the path stands, and no other outcome is. -/
theorem outcomeJson?_cases (outcome : Outcome) :
    (Utf8.isValid outcome.path.bytes = true ∧ ∃ members,
      outcomeJson? outcome = some (.object members) ∧
        ("path", .string outcome.path.display) ∈ members) ∨
    (Utf8.isValid outcome.path.bytes = false ∧ outcomeJson? outcome = none) := by
  rw [outcomeJson?, pathJson?_eq]
  cases Utf8.isValid outcome.path.bytes with
  | true => exact .inl ⟨rfl, _, rfl, List.mem_cons_self⟩
  | false => exact .inr ⟨rfl, rfl⟩

/-- Outcomes are objects in an array if all their paths are UTF-8. -/
theorem outcomesJson?_cases (outcomes : List Outcome) :
    ((∀ outcome ∈ outcomes, Utf8.isValid outcome.path.bytes = true) ∧ ∃ items,
      outcomesJson? outcomes = some items ∧ ∀ outcome ∈ outcomes, ∃ members,
        .object members ∈ items ∧ ("path", .string outcome.path.display) ∈ members) ∨
    ((¬∀ outcome ∈ outcomes, Utf8.isValid outcome.path.bytes = true) ∧
      outcomesJson? outcomes = none) := by
  induction outcomes with
  | nil => exact .inl ⟨List.forall_mem_nil _, [], rfl, List.forall_mem_nil _⟩
  | cons outcome outcomes ih =>
    rw [outcomesJson?, List.forall_mem_cons]
    rcases outcomeJson?_cases outcome with ⟨hvalid, members, hfirst, hpath⟩ | ⟨hinvalid, hfirst⟩
    · rcases ih with ⟨hvalids, items, hrest, hpaths⟩ | ⟨hinvalids, hrest⟩
      · refine .inl ⟨⟨hvalid, hvalids⟩, .object members :: items, by rw [hfirst, hrest]; rfl, ?_⟩
        rw [List.forall_mem_cons]
        refine ⟨⟨members, List.mem_cons_self, hpath⟩, fun other hother => ?_⟩
        obtain ⟨members, hmem, hpath⟩ := hpaths other hother
        exact ⟨members, List.mem_cons_of_mem _ hmem, hpath⟩
      · exact .inr ⟨fun h => hinvalids h.2, by rw [hfirst, hrest]; rfl⟩
    · refine .inr ⟨fun h => ?_, by rw [hfirst]; rfl⟩
      rw [hinvalid] at h
      cases h.1

/-- A summary of which every path is UTF-8 is an object in which the outcomes stand, and no other
summary is. -/
theorem summaryJson?_cases (summary : Summary) :
    (summary.IsText ∧ ∃ members items, summaryJson? summary = some (.object members) ∧
      ("outcomes", .array items) ∈ members ∧ ∀ outcome ∈ summary.outcomes, ∃ members,
        .object members ∈ items ∧ ("path", .string outcome.path.display) ∈ members) ∨
    (¬summary.IsText ∧ summaryJson? summary = none) := by
  rw [summaryJson?, pathJson?_eq, Summary.IsText]
  cases Utf8.isValid summary.root.bytes with
  | true =>
    rcases outcomesJson?_cases summary.outcomes with
      ⟨hvalids, items, hitems, hpaths⟩ | ⟨hinvalids, hitems⟩
    · exact .inl ⟨⟨rfl, hvalids⟩, _, items, by rw [hitems]; rfl, by simp, hpaths⟩
    · exact .inr ⟨fun h => hinvalids h.2, by rw [hitems]; rfl⟩
  | false => exact .inr ⟨fun h => Bool.false_ne_true h.1, rfl⟩

/-- The report for machines names the path of an outcome if and only if all paths are UTF-8. -/
theorem names_document_iff {summary : Summary} {outcome : Outcome}
    (h : outcome ∈ summary.outcomes) :
    Names .json (document summary) outcome.path ↔ summary.IsText := by
  rw [Names, nameIn, document, String.toList_append]
  rcases summaryJson?_cases summary with
    ⟨htext, members, items, hsummary, hitems, hpaths⟩ | ⟨hnotext, hsummary⟩
  · refine iff_of_true ?_ htext
    obtain ⟨inner, hmem, hpath⟩ := hpaths outcome h
    rw [hsummary, Option.map_some, Option.getD_some, Json.write, String.toList_ofList]
    -- the path is written in its outcome, the outcome in the array, and the array in the summary
    have houtcome := (Json.infix_object hpath 2).trans (Json.infix_array hmem 1)
    exact (houtcome.trans (Json.infix_object hitems 0)).trans (List.prefix_append _ _).isInfix
  · refine iff_of_false (fun hquoted => ?_) hnotext
    rw [hsummary] at hquoted
    have hquote : '"' ∈ ['\n'] := hquoted.mem List.mem_cons_self
    exact absurd hquote (by decide)

/-- What is printed of a line stands in the output. -/
theorem infix_printed {line : String} {lines : List String} (h : line ∈ lines) :
    line.toList <:+: (printed lines).toList := by
  rw [printed, String.toList_join, List.flatMap_map]
  obtain ⟨before, after, rfl⟩ := List.append_of_mem h
  exact ⟨before.flatMap fun line => (line ++ "\n").toList,
    '\n' :: after.flatMap fun line => (line ++ "\n").toList, by simp⟩

/-- The closing block names the path of every failure. -/
theorem names_closingLines {summary : Summary} (hfailed : summary.failed = summary.failures.length)
    {outcome : Outcome} (h : outcome ∈ summary.failures) :
    Names .human (printed (closingLines summary)) outcome.path := by
  have hsome : summary.failed ≠ 0 := by
    rw [hfailed]
    exact (List.length_pos_of_mem h).ne'
  have hline : s!"  {outcome.path}" ∈ closingLines summary := by
    rw [closingLines, failureLines, if_neg hsome]
    simp only [List.mem_append, List.mem_cons, List.mem_map]
    exact .inl (.inl (.inr (.inr ⟨outcome, h, rfl⟩)))
  have hpath : outcome.path.display.toList <:+: (s!"  {outcome.path}").toList :=
    ⟨[' ', ' '], [], by simp [toString]⟩
  exact hpath.trans (infix_printed hline)

/-- The report for machines stays silent until the end. -/
theorem foldl_observe_json (dryRun colored : Bool) (outcomes : List Outcome) :
    outcomes.foldl (observe .json dryRun colored) "" = "" := by
  induction outcomes with
  | nil => rfl
  | cons outcome outcomes ih => exact ih

/-- A sweep of a directory reports each failure by its path, except that the report for machines
names nothing if the root or the path of some outcome, failed or not, is not UTF-8. -/
theorem sweep_names_failure_iff (cleaner : Cleaner) (mode : Mode) (colored : Bool) (root : Path)
    (session : Session) (hroot : session.tree.layout.isDirectory root = true) :
    ∃ progress output,
      cleaner.run (observe mode cleaner.dryRun colored) root session (mode.opening root) =
        .ok progress ∧
      sweep cleaner mode colored root session = .ok (progress.session, output) ∧
      ∀ outcome ∈ progress.summary.failures,
        (Names mode output outcome.path ↔ mode = .human ∨ progress.summary.IsText) := by
  have hrun := cleaner.run_eq_map_discover (observe mode cleaner.dryRun colored) root session
    (mode.opening root)
  rw [discover_eq_ok_iff.mpr ⟨hroot, rfl⟩, Except.map] at hrun
  have haccounted := cleaner.accounted_process (observe mode cleaner.dryRun colored) root
    (entriesBelow session.tree.layout root) session (mode.opening root)
  refine ⟨_, _, hrun, by rw [sweep, hrun]; rfl, fun outcome hfailure => ?_⟩
  cases mode with
  | human =>
    refine iff_of_true ?_ (.inl rfl)
    have hclosing := names_closingLines haccounted.balanced.failed hfailure
    rw [Names, String.toList_append]
    exact hclosing.trans (List.suffix_append _ _).isInfix
  | json =>
    have hsilent := haccounted.observed.trans (foldl_observe_json cleaner.dryRun colored _)
    have hdocument := names_document_iff (List.mem_of_mem_filter hfailure)
    rw [hsilent, String.empty_append]
    exact hdocument.trans (by simp)

/-- A directory in which one file is no text, under a name that has to be quoted. -/
def quotedTree : Tree := ⟨[], [
  ([], .directory .full),
  ([ascii "r"], .directory .full),
  ([ascii "r", ascii "a\"b.dart"], .file .full [0xFF])]⟩

/-- The report for machines names its one failure. -/
theorem sweep_names_failure_quoted :
    quotedTree.layout.isDirectory ⟨ascii "r"⟩ = true ∧
      ∃ (progress : Progress String) (output : String),
        sweep .standard .json false ⟨ascii "r"⟩ (.start quotedTree) =
          .ok (progress.session, output) ∧
        progress.summary.failures.map (·.path) = [⟨ascii "r/a\"b.dart"⟩] ∧
        Names .json output ⟨ascii "r/a\"b.dart"⟩ := by
  have hroot : (Session.start quotedTree).tree.layout.isDirectory ⟨ascii "r"⟩ = true := by rfl
  obtain ⟨progress, output, hrun, hsweep, hnames⟩ :=
    sweep_names_failure_iff .standard .json false ⟨ascii "r"⟩ (.start quotedTree) hroot
  have hsummary : (Cleaner.standard.run (observe .json false false) ⟨ascii "r"⟩
      (.start quotedTree) "").map (fun progress =>
        (progress.summary.root, progress.summary.outcomes)) =
      .ok (⟨ascii "r"⟩,
        [.failed ⟨ascii "r/a\"b.dart"⟩ (.decode ⟨ascii "r/a\"b.dart"⟩)]) := by decide +kernel
  have hrun' : Cleaner.standard.run (observe .json false false) ⟨ascii "r"⟩ (.start quotedTree) "" =
    .ok progress := hrun
  rw [hrun', Except.map, Except.ok.injEq, Prod.mk.injEq] at hsummary
  have hfailures : progress.summary.failures =
      [.failed ⟨ascii "r/a\"b.dart"⟩ (.decode ⟨ascii "r/a\"b.dart"⟩)] := by
    rw [Summary.failures, hsummary.2]
    rfl
  have htext : progress.summary.IsText := by
    rw [Summary.IsText, hsummary.1, hsummary.2]
    decide +kernel
  have hmem : Outcome.failed ⟨ascii "r/a\"b.dart"⟩ (.decode ⟨ascii "r/a\"b.dart"⟩) ∈
      progress.summary.failures := by
    rw [hfailures]
    exact List.mem_cons_self
  have hnamed := (hnames _ hmem).mpr (.inr htext)
  exact ⟨hroot, progress, output, hsweep, by rw [hfailures]; rfl, hnamed⟩

/-- A directory in which one file is no text, and another one is fine but for its name. -/
def misnamedTree : Tree := ⟨[], [
  ([], .directory .full),
  ([ascii "r"], .directory .full),
  ([ascii "r", ascii "a.dart"], .file .full [0xFF]),
  ([ascii "r", 0xFF :: ascii ".dart"], .file .full (ascii "x"))]⟩

/-- The report for machines does not name its one failure. -/
theorem not_sweep_names_failures :
    ¬∀ (cleaner : Cleaner) (mode : Mode) (colored : Bool) (root : Path) (session : Session),
      session.tree.layout.isDirectory root = true →
      ∃ progress output,
        cleaner.run (observe mode cleaner.dryRun colored) root session (mode.opening root) =
          .ok progress ∧
        sweep cleaner mode colored root session = .ok (progress.session, output) ∧
        ∀ outcome ∈ progress.summary.failures, Names mode output outcome.path := by
  intro hall
  obtain ⟨progress, output, hrun, hsweep, hnames⟩ :=
    hall .standard .json false ⟨ascii "r"⟩ (.start misnamedTree) (by rfl)
  have hfailures : (Cleaner.standard.run (observe .json false false) ⟨ascii "r"⟩
      (.start misnamedTree) "").map (fun progress => progress.summary.failures) =
      .ok [.failed ⟨ascii "r/a.dart"⟩ (.decode ⟨ascii "r/a.dart"⟩)] := by decide +kernel
  have houtput : (sweep .standard .json false ⟨ascii "r"⟩ (.start misnamedTree)).map Prod.snd =
      .ok "\n" := by decide +kernel
  have hrun' : Cleaner.standard.run (observe .json false false) ⟨ascii "r"⟩
    (.start misnamedTree) "" = .ok progress := hrun
  rw [hrun', Except.map, Except.ok.injEq] at hfailures
  rw [hsweep, Except.map, Except.ok.injEq] at houtput
  rw [hfailures] at hnames
  have hnamed := hnames _ List.mem_cons_self
  rw [show output = "\n" from houtput] at hnamed
  revert hnamed
  decide +kernel

end Report

end DebugSweep
