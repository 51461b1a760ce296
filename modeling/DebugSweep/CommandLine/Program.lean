import DebugSweep.CommandLine.Arguments
import DebugSweep.CommandLine.Help
import DebugSweep.CommandLine.LogFilter
import DebugSweep.Report.Printing

/-!
# The program

The program reads its arguments, loads the configuration, and sweeps the root with a report. An
argument wins over the setting of the same name. The program fails, and changes nothing, if its
configuration or its root cannot be used; files that fail do not make it fail.
-/

namespace DebugSweep.CommandLine

/-- The variables of the environment. -/
abbrev Environment := List (String × String)

/-- Why the program fails. -/
inductive Failure where
  /-- The configuration file asked for is not there. -/
  | configNotFound (path : Path)
  | config (error : ConfigError)
  /-- The root cannot be swept. -/
  | root (path : Path) (error : SweepError)
  deriving DecidableEq, Repr

/-- What the program says of its failure. An invalid configuration would be explained further on
the same line. -/
def Failure.message : Failure → String
  | .configNotFound path => s!"❌ config not found: {path}\n"
  | .config (.invalid path) => s!"❌ {(ConfigError.invalid path).message}"
  | .config (.unreadable path fault) =>
    s!"❌ {(ConfigError.unreadable path fault).message}: {fault.message}\n"
  | .root path error => s!"❌ cannot clean {path}: {error.message}\n"

/-- What a run of the program leaves behind. -/
structure Result where
  exit : Nat
  output : String
  /-- What is said beside the output: the records shown and the reason of a failure. -/
  errors : String
  tree : Tree
  deriving DecidableEq, Repr

/-- Whether output is coloured: only where the environment forces it. -/
def colored (environment : Environment) : Bool :=
  match environment.lookup "CLICOLOR_FORCE" with
  | some value => value != "0"
  | none => false

/-- What the environment says to be shown, else everything down to a level that the arguments
decide. -/
def logDirectives (environment : Environment) (arguments : Arguments) : List Directive :=
  let level := if .verbose ∈ arguments.flags then "debug" else "info"
  directives ((environment.lookup "RUST_LOG").getD level)

/-- Load the configuration that the arguments ask for. -/
def loadConfig (arguments : Arguments) (session : Session) : Session × Except Failure Config :=
  match arguments.config with
  | some path =>
    if !session.tree.layout.contains path then (session, .error (.configNotFound path))
    else
      let (session, config) := Config.load session path
      (session, config.mapError .config)
  | none =>
    let (session, config) := Config.load session (.ofString Config.fileName)
    (session, config.mapError .config)

/-- The root to sweep. -/
def chosenRoot (arguments : Arguments) (config : Config) : Path :=
  arguments.root.getD config.root

/-- The cleaner to sweep with. -/
def chosenCleaner (arguments : Arguments) (config : Config) : Cleaner :=
  { exclude := arguments.exclude.getD config.exclude
    strategy := if .legacy ∈ arguments.flags then .legacy else config.strategy
    dryRun := .dryRun ∈ arguments.flags }

/-- The form of the report. -/
def chosenMode (arguments : Arguments) : Report.Mode :=
  if .json ∈ arguments.flags then .json else .human

/-- Sweep as the arguments ask: the session afterwards and the output, or why there is none. -/
def sweep (environment : Environment) (arguments : Arguments) (session : Session) :
    Session × Except Failure String :=
  match loadConfig arguments session with
  | (session, .error failure) => (session, .error failure)
  | (session, .ok config) =>
    let root := chosenRoot arguments config
    match Report.sweep (chosenCleaner arguments config) (chosenMode arguments)
      (colored environment) root session with
    | .error error => (session, .error (.root root error))
    | .ok (session, output) => (session, .ok output)

/-- Sweep as the arguments ask, and show the records that are to be shown. -/
def sweepResult (environment : Environment) (arguments : Arguments) (tree : Tree) : Result :=
  let (session, result) := sweep environment arguments (.start tree)
  let shown := session.log.filter (shows (logDirectives environment arguments))
  let log := String.join (shown.map recordLine)
  match result with
  | .ok output => ⟨0, output, log, session.tree⟩
  | .error failure => ⟨1, "", log ++ failure.message, session.tree⟩

/-- Run the program on a tree. -/
def run (environment : Environment) (arguments : List Bytes) (tree : Tree) : Result :=
  match read arguments with
  | .error error => ⟨2, "", error.message, tree⟩
  | .ok (.help long) => ⟨0, help long, "", tree⟩
  | .ok .version => ⟨0, versionText, "", tree⟩
  | .ok (.sweep arguments) => sweepResult environment arguments tree

end DebugSweep.CommandLine
