import DebugSweep.Sweep.Error
import DebugSweep.Strip.Strategy

/-!
# Outcomes and the summary of a sweep

An outcome says what happened at one place. The summary keeps every outcome in the order of the
sweep and the totals over them; `Summary.record` adds one outcome. The totals are machine words.
What the outcomes report as removed can be any words, so their total may not fit (`addWord`); the
other totals are at most the number of outcomes, all of which are kept.
-/

namespace DebugSweep

open Strip (Strategy)

/-- What happened to a file. -/
inductive Status where
  /-- It is the logging utility and was not touched. -/
  | excluded
  /-- It holds no statement. -/
  | unchanged
  /-- Its statements were replaced, or would be in a dry run. -/
  | cleaned
  /-- It could not be read, decoded or written, or the walk failed there. -/
  | failed
  deriving DecidableEq, Repr

/-- The name a status is written by. -/
def Status.name : Status → String
  | .excluded => "excluded"
  | .unchanged => "unchanged"
  | .cleaned => "cleaned"
  | .failed => "failed"

/-- What happened at one place. -/
structure Outcome where
  path : Path
  status : Status
  /-- The statements reported as removed. -/
  removed : Nat
  /-- Whether the content changed, or would in a dry run. -/
  modified : Bool
  /-- The error's text, for a failure. -/
  error : Option String
  deriving DecidableEq, Repr

namespace Outcome

/-- The logging utility was left alone. -/
def excluded (path : Path) : Outcome := ⟨path, .excluded, 0, false, none⟩

/-- No statement was found. -/
def unchanged (path : Path) : Outcome := ⟨path, .unchanged, 0, false, none⟩

/-- The content changed, with `removed` statements reported. -/
def cleaned (path : Path) (removed : Nat) : Outcome := ⟨path, .cleaned, removed, true, none⟩

/-- Something failed at the path. -/
def failed (path : Path) (error : SweepError) : Outcome :=
  ⟨path, .failed, 0, false, some error.message⟩

end Outcome

/-- The outcomes of a sweep with their totals. -/
structure Summary where
  root : Path
  strategy : Strategy
  dryRun : Bool
  /-- The files handled without error, excluded ones included. -/
  processed : Nat
  modified : Nat
  excluded : Nat
  failed : Nat
  /-- The statements reported as removed. -/
  removed : Nat
  /-- Every outcome, in the order of the sweep. -/
  outcomes : List Outcome
  deriving DecidableEq, Repr

/-- The number of machine words: a total is less than this. -/
def wordSize : Nat := 18446744073709551616

/-- The word that adding to a total leaves in its place. -/
def addWord (total count : Nat) : Nat := (total + count) % wordSize

namespace Summary

/-- The summary of a sweep that has not met anything yet. -/
def empty (root : Path) (strategy : Strategy) (dryRun : Bool) : Summary :=
  ⟨root, strategy, dryRun, 0, 0, 0, 0, 0, []⟩

/-- The summary with one more outcome; its status decides which totals it enters. -/
def record (summary : Summary) (outcome : Outcome) : Summary :=
  let summary := { summary with outcomes := summary.outcomes ++ [outcome] }
  match outcome.status with
  | .excluded =>
    { summary with processed := summary.processed + 1, excluded := summary.excluded + 1 }
  | .unchanged => { summary with processed := summary.processed + 1 }
  | .cleaned =>
    { summary with
      processed := summary.processed + 1
      modified := summary.modified + 1
      removed := addWord summary.removed outcome.removed }
  | .failed => { summary with failed := summary.failed + 1 }

/-- Recording an outcome with checked additions, as in a build for debugging, which stops where a
total does not fit its word. -/
def record? (summary : Summary) (outcome : Outcome) : Option Summary :=
  if outcome.status = .cleaned ∧ wordSize ≤ summary.removed + outcome.removed then none
  else some (summary.record outcome)

/-- The outcomes of what failed, in order. -/
def failures (summary : Summary) : List Outcome :=
  summary.outcomes.filter (·.status == .failed)

end Summary

end DebugSweep
