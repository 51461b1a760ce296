import DebugSweep.Sweep.Cleaner
import DebugSweep.Report.Mode

/-!
# Sweeping with a report

The sweep of a root together with what is printed on the way: the opening, a line for each outcome
as it becomes known, and the closing. Nothing is printed for a root that cannot be walked.
-/

namespace DebugSweep.Report

/-- What is printed after an outcome, added to what was printed before. -/
def observe (mode : Mode) (dryRun colored : Bool) (output : String) (outcome : Outcome) : String :=
  output ++ mode.progress dryRun colored outcome

/-- Sweep a root and print the report: the session afterwards and the output. -/
def sweep (cleaner : Cleaner) (mode : Mode) (colored : Bool) (root : Path) (session : Session) :
    Except SweepError (Session × String) :=
  (cleaner.run (observe mode cleaner.dryRun colored) root session (mode.opening root)).map
    fun progress => (progress.session, progress.seen ++ mode.closing progress.summary)

end DebugSweep.Report
