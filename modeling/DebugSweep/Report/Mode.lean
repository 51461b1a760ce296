import DebugSweep.Report.Lines
import DebugSweep.Report.Machine

/-!
# The two forms of the report

For people the report runs along with the sweep. For machines it stays silent until the end and
then prints the whole summary once.
-/

namespace DebugSweep.Report

/-- Whom the report is for. -/
inductive Mode where
  | human
  | json
  deriving DecidableEq, Repr

namespace Mode

/-- What is printed before any file is looked at. -/
def opening : Mode → Path → String
  | .human, root => printed (openingLines root)
  | .json, _ => ""

/-- What is printed when an outcome is known. -/
def progress : Mode → (dryRun colored : Bool) → Outcome → String
  | .human, dryRun, colored, outcome => printed [progressLine outcome dryRun colored]
  | .json, _, _, _ => ""

/-- What is printed at the end. -/
def closing : Mode → Summary → String
  | .human, summary => printed (closingLines summary)
  | .json, summary => document summary

end Mode

end DebugSweep.Report
