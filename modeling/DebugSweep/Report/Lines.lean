import DebugSweep.Sweep.Outcome
import DebugSweep.Report.Color

/-!
# The report for people

A banner before the sweep, one line for each outcome while it runs, and a closing block with the
totals, the places that failed and a command that looks for leftovers.
-/

namespace DebugSweep

/-- The command that counts the calls left below a root. -/
def verifyCommand (root : Path) : String :=
  s!"grep -r 'print(' {root} --include='*.{sourceExtension}' | wc -l"

namespace Report

/-- The line that sets off the parts of the report. -/
def rule : String := String.ofList (List.replicate 60 '=')

/-- The lines printed before any file is looked at. -/
def openingLines (root : Path) : List String :=
  [s!"🚀 Starting print statement removal from {root}", rule]

/-- The colour that sets off an outcome. -/
def outcomeColor (outcome : Outcome) (dryRun : Bool) : Color :=
  match outcome.status with
  | .excluded => .yellow
  | .unchanged => .dim
  | .cleaned => if dryRun then .cyan else .green
  | .failed => .red

/-- What the line of an outcome says. -/
def outcomeText (outcome : Outcome) (dryRun : Bool) : String :=
  match outcome.status with
  | .excluded => s!"⏭️  Skipping {outcome.path} (logging utility)"
  | .unchanged => s!"⏭️  {outcome.path}: No prints found"
  | .cleaned =>
    if dryRun then s!"✅ {outcome.path}: Would remove ~{outcome.removed} print statements"
    else s!"✅ {outcome.path}: Removed ~{outcome.removed} print statements"
  | .failed =>
    let reason := outcome.error.getD "unknown error"
    s!"❌ Error processing {outcome.path}: {reason}"

/-- The line of an outcome, coloured or plain. -/
def progressLine (outcome : Outcome) (dryRun colored : Bool) : String :=
  let text := outcomeText outcome dryRun
  if colored then (outcomeColor outcome dryRun).paint text else text

/-- The lines that name what failed, if anything did. -/
def failureLines (summary : Summary) : List String :=
  if summary.failed = 0 then []
  else
    s!"❌ {summary.failed} file(s) could not be processed:" ::
      summary.failures.map fun outcome => s!"  {outcome.path}"

/-- The lines of the closing block. -/
def closingLines (summary : Summary) : List String :=
  [rule,
    s!"✅ Complete! Processed {summary.processed} files",
    s!"📊 Total print statements removed: ~{summary.removed}"] ++
  failureLines summary ++
  (if summary.dryRun then ["Dry run: no files were written."] else []) ++
  ["", "Run this to verify:", s!"  {verifyCommand summary.root}"]

/-- Lines as they are printed, each with its end. -/
def printed (lines : List String) : String := String.join (lines.map (· ++ "\n"))

end Report

end DebugSweep
