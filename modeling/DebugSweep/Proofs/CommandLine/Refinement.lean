import DebugSweep.CommandLine.Program
import DebugSweep.Proofs.CommandLine.Reading
import DebugSweep.Proofs.Sweep.Turns

/-!
# The program refines the library

A caller of the library discovers the entries below a root, opens the report, processes the entries
with a line for each outcome, and closes the report (`Report.pipeline`). The program does the same
with the settings that its arguments and its configuration choose. It fails before the first of
these steps or not at all: only a configuration that is of no use or a root that is no directory
makes it fail, and then it has printed nothing and written nothing (`run_refines`).
-/

namespace DebugSweep

/-- A path that leads to a directory leads somewhere. -/
theorem Layout.contains_of_isDirectory {layout : Layout} {path : Path}
    (h : layout.isDirectory path = true) : layout.contains path = true := by
  rw [isDirectory] at h
  rw [contains]
  cases hentry : layout.entry true path with
  | error fault => rw [hentry] at h; cases h
  | ok found => rfl

namespace Report

/-- Discover the entries below a root, process them and print the report around them: the tree
afterwards and the output. -/
def pipeline (cleaner : Cleaner) (mode : Mode) (colored : Bool) (root : Path) (tree : Tree) :
    Except SweepError (Tree × String) :=
  (discover tree.layout root).map fun entries =>
    let progress := cleaner.process (observe mode cleaner.dryRun colored) root entries
      (.start tree) (mode.opening root)
    (progress.session.tree, progress.seen ++ mode.closing progress.summary)

/-- A sweep with a report does what the steps of it do; what was logged before does not matter. -/
theorem map_sweep (cleaner : Cleaner) (mode : Mode) (colored : Bool) (root : Path)
    (session : Session) :
    (sweep cleaner mode colored root session).map (fun done => (done.1.tree, done.2)) =
      pipeline cleaner mode colored root session.tree := by
  rw [sweep, pipeline, Cleaner.run_eq_map_discover]
  cases discover session.tree.layout root with
  | error error => rfl
  | ok entries =>
    simp only [Except.map, Cleaner.process_eq_turns]
    rfl

/-- The steps can be taken where the root leads to a directory. -/
theorem exists_pipeline_iff {cleaner : Cleaner} {mode : Mode} {colored : Bool} {root : Path}
    {tree : Tree} :
    (∃ done, pipeline cleaner mode colored root tree = .ok done) ↔
      tree.layout.isDirectory root = true := by
  rw [pipeline]
  constructor
  · rintro ⟨done, hdone⟩
    cases hdiscover : discover tree.layout root with
    | error error => rw [hdiscover] at hdone; cases hdone
    | ok entries => exact (discover_eq_ok_iff.mp hdiscover).1
  · intro hdirectory
    rw [discover_eq_ok_iff.mpr ⟨hdirectory, rfl⟩]
    exact ⟨_, rfl⟩

end Report

namespace CommandLine

/-- Where the configuration is looked for. -/
def configPath (arguments : Arguments) : Path :=
  arguments.config.getD (.ofString Config.fileName)

/-- The configuration in force: that of the file, or the defaults where no file was asked for and
none is there. -/
inductive Configured (arguments : Arguments) (tree : Tree) : Config → Prop where
  | file {text : List Char} {config : Config}
      (hthere : tree.layout.contains (configPath arguments) = true)
      (hread : Config.readText tree (configPath arguments) = .ok text)
      (hvalid : Config.ofText? text = some config) : Configured arguments tree config
  | standard (hunset : arguments.config = none)
      (habsent : tree.layout.contains (configPath arguments) = false) :
      Configured arguments tree .standard

/-- No configuration is in force: the file asked for is not there, or the file cannot be read as
text, or the text is no configuration. -/
inductive Unconfigured (arguments : Arguments) (tree : Tree) : Prop where
  | missing {path : Path} (hasked : arguments.config = some path)
      (habsent : tree.layout.contains path = false)
  | unreadable {fault : Fault} (hthere : tree.layout.contains (configPath arguments) = true)
      (hread : Config.readText tree (configPath arguments) = .error fault)
  | invalid {text : List Char} (hthere : tree.layout.contains (configPath arguments) = true)
      (hread : Config.readText tree (configPath arguments) = .ok text)
      (hinvalid : Config.ofText? text = none)

/-- What makes the program fail. -/
inductive Fatal (arguments : Arguments) (tree : Tree) : Prop where
  | configuration (h : Unconfigured arguments tree)
  | rootNotFound {config : Config} (hconfig : Configured arguments tree config)
      (hroot : tree.layout.contains (arguments.root.getD config.root) = false)
  | notADirectory {config : Config} (hconfig : Configured arguments tree config)
      (hroot : tree.layout.isDirectory (arguments.root.getD config.root) = false)

variable {arguments : Arguments} {tree : Tree} {config : Config}

/-- At most one configuration is in force. -/
theorem Configured.unique {other : Config} (h : Configured arguments tree config)
    (hother : Configured arguments tree other) : config = other := by
  cases h with
  | file hthere hread hvalid =>
    cases hother with
    | file _ hread' hvalid' =>
      rw [Except.ok.inj (hread.symm.trans hread')] at hvalid
      exact Option.some.inj (hvalid.symm.trans hvalid')
    | standard _ habsent => rw [hthere] at habsent; cases habsent
  | standard hunset habsent =>
    cases hother with
    | file hthere _ _ => rw [hthere] at habsent; cases habsent
    | standard _ _ => rfl

/-- Where a configuration is in force there is nothing wrong with it. -/
theorem Configured.not_unconfigured (h : Configured arguments tree config) :
    ¬ Unconfigured arguments tree := by
  intro hun
  cases h with
  | file hthere hread hvalid =>
    cases hun with
    | missing hasked habsent =>
      rw [configPath, hasked, Option.getD_some, habsent] at hthere
      cases hthere
    | unreadable _ hread' => cases hread.symm.trans hread'
    | invalid _ hread' hinvalid =>
      rw [Except.ok.inj (hread.symm.trans hread'), hinvalid] at hvalid
      cases hvalid
  | standard hunset habsent =>
    cases hun with
    | missing hasked _ => cases hunset.symm.trans hasked
    | unreadable hthere _ => cases habsent.symm.trans hthere
    | invalid hthere _ _ => cases habsent.symm.trans hthere

/-- What there is at the path looked at is loaded, whether it was asked for or not. -/
theorem loadConfig_of_contains {session : Session}
    (hthere : session.tree.layout.contains (configPath arguments) = true) :
    loadConfig arguments session =
      ((Config.load session (configPath arguments)).1,
        (Config.load session (configPath arguments)).2.mapError .config) := by
  rw [loadConfig]
  rw [configPath] at hthere ⊢
  cases hasked : arguments.config with
  | none => rfl
  | some path =>
    rw [hasked, Option.getD_some] at hthere
    simp only [hthere, Option.getD_some, Bool.not_true, Bool.false_eq_true, if_false]

/-- Loading the configuration leaves the tree alone, and gives the one in force or a failure where
none is. -/
theorem loadConfig_cases (arguments : Arguments) (session : Session) :
    (loadConfig arguments session).1.tree = session.tree ∧
      ((∃ config, (loadConfig arguments session).2 = .ok config ∧
          Configured arguments session.tree config) ∨
        (∃ failure, (loadConfig arguments session).2 = .error failure) ∧
          Unconfigured arguments session.tree) := by
  cases hthere : session.tree.layout.contains (configPath arguments) with
  | true =>
    rw [loadConfig_of_contains hthere, Config.load, hthere, Bool.not_true,
      if_neg Bool.false_ne_true]
    cases hread : Config.readText session.tree (configPath arguments) with
    | error fault => exact ⟨rfl, .inr ⟨⟨_, rfl⟩, .unreadable hthere hread⟩⟩
    | ok text =>
      dsimp only
      cases hvalid : Config.ofText? text with
      | none => exact ⟨rfl, .inr ⟨⟨_, rfl⟩, .invalid hthere hread hvalid⟩⟩
      | some config => exact ⟨rfl, .inl ⟨config, rfl, .file hthere hread hvalid⟩⟩
  | false =>
    have habsent := hthere
    rw [configPath] at habsent
    rw [loadConfig]
    cases hasked : arguments.config with
    | some path =>
      rw [hasked, Option.getD_some] at habsent
      dsimp only
      rw [habsent, Bool.not_false, if_pos rfl]
      exact ⟨rfl, .inr ⟨⟨_, rfl⟩, .missing hasked habsent⟩⟩
    | none =>
      rw [hasked, Option.getD_none] at habsent
      dsimp only
      rw [Config.load, habsent, Bool.not_false, if_pos rfl]
      exact ⟨rfl, .inl ⟨_, rfl, .standard hasked hthere⟩⟩

/-- Without a configuration in force the program fails, prints nothing and writes nothing. -/
theorem sweepResult_of_unconfigured (environment : Environment)
    (h : Unconfigured arguments tree) :
    let result := sweepResult environment arguments tree
    result.exit = 1 ∧ result.output = "" ∧ result.tree = tree := by
  obtain ⟨htree, ⟨config, -, hconfig⟩ | ⟨⟨failure, hfailure⟩, -⟩⟩ :=
    loadConfig_cases arguments (.start tree)
  · exact absurd h hconfig.not_unconfigured
  · rw [sweepResult, sweep, ← Prod.eta (loadConfig arguments (.start tree)), hfailure]
    exact ⟨rfl, rfl, htree⟩

/-- With a configuration in force the program takes the steps of a sweep with a report. Where they
cannot be taken, it fails, prints nothing and writes nothing. -/
theorem sweepResult_of_configured (environment : Environment)
    (h : Configured arguments tree config) :
    let result := sweepResult environment arguments tree
    match Report.pipeline (chosenCleaner arguments config) (chosenMode arguments)
      (colored environment) (chosenRoot arguments config) tree with
    | .error _ => result.exit = 1 ∧ result.output = "" ∧ result.tree = tree
    | .ok done => result.exit = 0 ∧ (result.tree, result.output) = done := by
  obtain ⟨htree, ⟨found, hfound, hconfig⟩ | ⟨-, hun⟩⟩ := loadConfig_cases arguments (.start tree)
  · obtain rfl := hconfig.unique h
    have hsweep := Report.map_sweep (chosenCleaner arguments found) (chosenMode arguments)
      (colored environment) (chosenRoot arguments found) (loadConfig arguments (.start tree)).1
    rw [htree] at hsweep
    change _ = Report.pipeline _ _ _ _ tree at hsweep
    rw [← hsweep, sweepResult, sweep, ← Prod.eta (loadConfig arguments (.start tree)), hfound]
    dsimp only
    cases Report.sweep (chosenCleaner arguments found) (chosenMode arguments)
      (colored environment) (chosenRoot arguments found)
      (loadConfig arguments (.start tree)).1 with
    | error error => exact ⟨rfl, rfl, htree⟩
    | ok done => exact ⟨rfl, rfl⟩
  · exact absurd hun h.not_unconfigured

/-- A configuration is in force or not. -/
theorem configured_or_unconfigured (arguments : Arguments) (tree : Tree) :
    (∃ config, Configured arguments tree config) ∨ Unconfigured arguments tree := by
  obtain ⟨-, ⟨config, -, hconfig⟩ | ⟨-, hun⟩⟩ := loadConfig_cases arguments (.start tree)
  · exact .inl ⟨config, hconfig⟩
  · exact .inr hun

/-- With a configuration in force only a root that is no directory makes the program fail. -/
theorem Configured.fatal_iff (h : Configured arguments tree config) :
    Fatal arguments tree ↔ tree.layout.isDirectory (chosenRoot arguments config) = false := by
  constructor
  · intro hfatal
    cases hfatal with
    | configuration hun => exact absurd hun h.not_unconfigured
    | rootNotFound hconfig hroot =>
      obtain rfl := hconfig.unique h
      rw [← Bool.not_eq_true] at hroot ⊢
      exact fun hdirectory => hroot (Layout.contains_of_isDirectory hdirectory)
    | notADirectory hconfig hroot =>
      obtain rfl := hconfig.unique h
      exact hroot
  · exact fun hroot => .notADirectory h hroot

/-- A command line that asks for a sweep makes the program fail, with nothing printed and nothing
written, if and only if something fatal is there. Otherwise the program succeeds, and its output and
the tree it leaves are those of a caller who discovers, processes and reports with the settings of
the arguments, else of the configuration in force. -/
theorem run_refines (environment : Environment) {line : List Bytes} (tree : Tree)
    {arguments : Arguments} (hread : read line = .ok (.sweep arguments)) :
    let result := run environment line tree
    (result.exit = 1 ∧ result.output = "" ∧ result.tree = tree ↔ Fatal arguments tree) ∧
      (¬ Fatal arguments tree → result.exit = 0 ∧ ∃ config, Configured arguments tree config ∧
        Report.pipeline
          { exclude := arguments.exclude.getD config.exclude
            strategy := if .legacy ∈ arguments.flags then .legacy else config.strategy
            dryRun := .dryRun ∈ arguments.flags }
          (if .json ∈ arguments.flags then .json else .human) (colored environment)
          (arguments.root.getD config.root) tree = .ok (result.tree, result.output)) := by
  have hrun : run environment line tree = sweepResult environment arguments tree := by
    rw [run, hread]
  rw [hrun]
  rcases configured_or_unconfigured arguments tree with ⟨config, hconfig⟩ | hun
  · have hresult := sweepResult_of_configured environment hconfig
    have hfatal := hconfig.fatal_iff
    cases hpipeline : Report.pipeline (chosenCleaner arguments config) (chosenMode arguments)
      (colored environment) (chosenRoot arguments config) tree with
    | error error =>
      have hroot : tree.layout.isDirectory (chosenRoot arguments config) = false := by
        rw [← Bool.not_eq_true, ← Report.exists_pipeline_iff, hpipeline]
        exact fun ⟨_, hdone⟩ => nomatch hdone
      rw [hpipeline] at hresult
      exact ⟨iff_of_true hresult (hfatal.mpr hroot), fun h => absurd (hfatal.mpr hroot) h⟩
    | ok done =>
      have hroot : tree.layout.isDirectory (chosenRoot arguments config) = true :=
        Report.exists_pipeline_iff.mp ⟨done, hpipeline⟩
      rw [hpipeline] at hresult
      obtain ⟨hexit, hdone⟩ := hresult
      have hnot : ¬ Fatal arguments tree := fun h => by
        cases hroot.symm.trans (hfatal.mp h)
      refine ⟨iff_of_false (fun h => ?_) hnot, fun _ => ⟨hexit, config, hconfig, ?_⟩⟩
      · cases hexit.symm.trans h.1
      · exact hpipeline.trans (congrArg Except.ok hdone.symm)
  · have hfatal : Fatal arguments tree := .configuration hun
    exact ⟨iff_of_true (sweepResult_of_unconfigured environment hun) hfatal,
      fun h => absurd hfatal h⟩

/-- A working directory with a configuration, a source file and one that cannot be read. -/
def configuredTree : Tree := ⟨[], [
  ([], .directory .full),
  ([ascii ".printstrip.toml"], .file .full (ascii "root = 'r'\nstrategy = 'legacy'\n")),
  ([ascii "r"], .directory .full),
  ([ascii "r", ascii "app_logger.dart"], .file .full (ascii "print(1);")),
  ([ascii "r", ascii "b.dart"], .file (.ofBits 0o200) [])]⟩

/-- A command line with every switch, an empty exclusion and a root after the options. -/
def switchedLine : List Bytes :=
  [ascii "-v", ascii "--dry-run", ascii "--exclude", [], ascii "--json", ascii "--legacy",
    ascii "--", ascii "r"]

/-- What it says. -/
def switchedItems : List Item :=
  [.flag .verbose, .flag .dryRun, .exclude [], .flag .json, .flag .legacy, .root (ascii "r")]

/-- An empty exclusion on the command line wins over the standard one, the strategy and the root
come from the file, and a file that cannot be read is not fatal; a missing configuration that was
asked for is. Switches choose the strategy, a dry run and the form of the report. -/
theorem run_refines_configured :
    let result := run [] [ascii "--exclude="] configuredTree
    let switched := run [] switchedLine configuredTree
    (result.exit = 0 ∧
      Report.pipeline ⟨"", .legacy, false⟩ .human false ⟨ascii "r"⟩ configuredTree =
        .ok (result.tree, result.output) ∧
      (run [] [ascii "--config=c", ascii "r"] configuredTree).exit = 1) ∧
    switched.exit = 0 ∧
      Report.pipeline ⟨"", .legacy, true⟩ .json false ⟨ascii "r"⟩ configuredTree =
        .ok (switched.tree, switched.output) := by
  intro result switched
  let arguments : Arguments := ⟨none, some "", none, []⟩
  have hread : read [ascii "--exclude="] = .ok (.sweep arguments) := by rfl
  obtain ⟨hfails, hdoes⟩ := run_refines [] configuredTree hread
  have hexit : result.exit = 0 := by decide +kernel
  have hnot : ¬ Fatal arguments configuredTree := fun h => by
    cases hexit.symm.trans (hfails.mpr h).1
  obtain ⟨-, config, hconfig, hpipeline⟩ := hdoes hnot
  have hfile : Configured arguments configuredTree ⟨⟨ascii "r"⟩, Config.loggerName, .legacy⟩ :=
    .file (by decide +kernel) (by rfl) (by decide +kernel)
  obtain rfl := hconfig.unique hfile
  have hread' : read [ascii "--config=c", ascii "r"] =
      .ok (.sweep ⟨some ⟨ascii "r"⟩, none, some ⟨ascii "c"⟩, []⟩) := by rfl
  obtain ⟨hfails', -⟩ := run_refines [] configuredTree hread'
  have hmissing := hfails'.mpr (.configuration (.missing rfl (by decide +kernel)))
  have hline : Line switchedItems switchedLine :=
    .cons .letter (.cons (.switch .dryRun) (.cons (.excludeNext (by decide)) (.cons (.switch .json)
      (.cons (.switch .legacy) (.stopRoot (by decide))))))
  obtain ⟨hfails'', hdoes''⟩ := run_refines [] configuredTree (read_line hline (by decide))
  have hexit' : switched.exit = 0 := by decide +kernel
  obtain ⟨-, config', hconfig', hpipeline'⟩ := hdoes'' fun h => by
    cases hexit'.symm.trans (hfails''.mpr h).1
  obtain rfl := hconfig'.unique
    (.file (by decide +kernel) (by rfl) (by decide +kernel) : Configured _ _
      ⟨⟨ascii "r"⟩, Config.loggerName, .legacy⟩)
  exact ⟨⟨hexit, hpipeline, hmissing.1⟩, hexit', hpipeline'⟩

end CommandLine

end DebugSweep
