import DebugSweep.Config
import DebugSweep.Sweep.Discovery
import DebugSweep.Sweep.Outcome

/-!
# Cleaning files

A cleaner strips the debug output from files, one after the other. Each file is read whole, stripped
in memory and written back only if its content changed. Whatever goes wrong with one file becomes
its outcome, and the sweep goes on.

`Cleaner.process` cleans entries found beforehand; `Cleaner.run` cleans while it walks. Both hand
each outcome to an observer as soon as it is known.
-/

namespace DebugSweep

open Strip (Strategy)

/-- Whether one text occurs in another. -/
def occursIn (part : List Char) : List Char → Bool
  | [] => part.isEmpty
  | c :: rest => part.isPrefixOf (c :: rest) || occursIn part rest

/-- How files are cleaned. -/
structure Cleaner where
  /-- The part of a path that marks the logging utility; an empty one marks nothing. -/
  exclude : String
  strategy : Strategy
  /-- Whether files are left as they are. -/
  dryRun : Bool
  deriving DecidableEq, Repr

/-- How far a sweep has come, with what an observer has made of the outcomes. -/
structure Progress (ω : Type) where
  session : Session
  summary : Summary
  seen : ω

namespace Cleaner

/-- The cleaner with the settings of a configuration, which writes what it changes. -/
def ofConfig (config : Config) : Cleaner := ⟨config.exclude, config.strategy, false⟩

/-- The cleaner used where nothing else is asked for. -/
def standard : Cleaner := ofConfig .standard

/-- Whether the path is that of the logging utility. -/
def excludes (cleaner : Cleaner) (path : Path) : Bool :=
  !cleaner.exclude.isEmpty && occursIn cleaner.exclude.toList path.display.toList

/-- Strip one file: the tree afterwards and, if the content changed, the number of statements
reported as removed. -/
def stripFile (cleaner : Cleaner) (tree : Tree) (path : Path) :
    Except SweepError (Tree × Option Nat) :=
  match tree.read path with
  | .error fault => .error (.read path fault)
  | .ok content =>
    if !Utf8.isValid content then .error (.decode path)
    else
      let stripped := Strip.strip cleaner.strategy content
      if stripped.text = content then .ok (tree, none)
      else if cleaner.dryRun then .ok (tree, some stripped.removed)
      else
        match tree.write path stripped.text with
        | .error fault => .error (.write path fault)
        | .ok tree => .ok (tree, some stripped.removed)

/-- Clean one file. -/
def clean (cleaner : Cleaner) (session : Session) (path : Path) : Session × Outcome :=
  if cleaner.excludes path then
    (session.note .debug .cleaning s!"skipping {path} (logging utility)", .excluded path)
  else
    match cleaner.stripFile session.tree path with
    | .ok (tree, some removed) =>
      ({ session with tree }.note .debug .cleaning s!"{path}: removed ~{removed} statement(s)",
        .cleaned path removed)
    | .ok (tree, none) =>
      ({ session with tree }.note .debug .cleaning s!"{path}: no statements found", .unchanged path)
    | .error error => (session.note .warn .cleaning error.message, .failed path error)

/-- Deal with one entry. The error of a walk that names no place is reported for the root. -/
def handle (cleaner : Cleaner) (root : Path) (session : Session) : Entry → Session × Outcome
  | .ok path => cleaner.clean session path
  | .error error =>
    (session.note .warn .cleaning error.message, .failed (error.path?.getD root) error)

variable {ω : Type} (observe : ω → Outcome → ω)

/-- Deal with one entry, and record and observe its outcome. -/
def step (cleaner : Cleaner) (root : Path) (progress : Progress ω) (entry : Entry) : Progress ω :=
  let (session, outcome) := cleaner.handle root progress.session entry
  { session
    summary := progress.summary.record outcome
    seen := observe progress.seen outcome }

/-- A sweep of a root before its first entry. -/
def begin (cleaner : Cleaner) (root : Path) (session : Session) (seen : ω) : Progress ω :=
  { session := session.note .info .cleaning
      s!"cleaning {root} with {cleaner.strategy.name} strategy"
    summary := .empty root cleaner.strategy cleaner.dryRun
    seen }

/-- Clean entries found beforehand. -/
def process (cleaner : Cleaner) (root : Path) (entries : List Entry) (session : Session)
    (seen : ω) : Progress ω :=
  entries.foldl (cleaner.step observe root) (cleaner.begin root session seen)

/-- Clean every source file below a root while walking it. -/
def sweep (cleaner : Cleaner) (root : Path) (session : Session) (seen : ω) : Progress ω :=
  Walk.fold (·.session.tree.layout)
    (fun progress visit =>
      match entryOfVisit? visit with
      | none => progress
      | some entry => cleaner.step observe root progress entry)
    root (cleaner.begin root session seen)

/-- Clean every source file below a root, if the root can be walked. -/
def run (cleaner : Cleaner) (root : Path) (session : Session) (seen : ω) :
    Except SweepError (Progress ω) :=
  match rootError? session.tree.layout root with
  | some error => .error error
  | none => .ok (cleaner.sweep observe root session seen)

end Cleaner

end DebugSweep
