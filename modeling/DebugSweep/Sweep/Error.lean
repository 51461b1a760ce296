import DebugSweep.Tree.Fault

/-!
# Errors of a sweep

What can go wrong with the root, with a single file, and with the walk between them. Only the two
errors of the root end a sweep; every other one is reported for the place it concerns.
-/

namespace DebugSweep

/-- Why the walk could not look at a place. -/
inductive WalkError where
  /-- The entry at `path` could not be looked at. -/
  | entry (path : Path) (fault : Fault)
  /-- A linked directory could not be opened to compare it with those being walked. -/
  | comparison (fault : Fault)
  /-- The link at `path` leads back to a directory that is being walked. -/
  | loop (path ancestor : Path)
  deriving DecidableEq, Repr

/-- The error as it is shown. -/
def WalkError.message : WalkError → String
  | .entry path fault => s!"IO error for operation on {path}: {fault.message}"
  | .comparison fault => fault.message
  | .loop path ancestor => s!"File system loop found: {path} points to an ancestor {ancestor}"

/-- The place the error concerns, if it names one. -/
def WalkError.path? : WalkError → Option Path
  | .entry path _ | .loop path _ => some path
  | .comparison _ => none

/-- An error met while discovering or cleaning files. -/
inductive SweepError where
  | rootNotFound (path : Path)
  | notADirectory (path : Path)
  | read (path : Path) (fault : Fault)
  /-- The file's content is not UTF-8. -/
  | decode (path : Path)
  | write (path : Path) (fault : Fault)
  | walk (error : WalkError)
  deriving DecidableEq, Repr

namespace SweepError

/-- The error as it is shown. -/
def message : SweepError → String
  | .rootNotFound path => s!"path not found: {path}"
  | .notADirectory path => s!"not a directory: {path}"
  | .read path fault => s!"failed to read {path}: {fault.message}"
  | .decode path => s!"{path} is not valid UTF-8"
  | .write path fault => s!"failed to write {path}: {fault.message}"
  | .walk error => s!"walkdir error: {error.message}"

/-- Whether the error ends the sweep rather than concerning a single place. -/
def isFatal : SweepError → Bool
  | .rootNotFound _ | .notADirectory _ => true
  | .read .. | .decode _ | .write .. | .walk _ => false

/-- The place the error concerns, if it names one. -/
def path? : SweepError → Option Path
  | .rootNotFound path | .notADirectory path | .read path _ | .decode path | .write path _ =>
    some path
  | .walk error => error.path?

end SweepError

end DebugSweep
