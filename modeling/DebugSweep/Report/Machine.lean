import DebugSweep.Sweep.Outcome
import DebugSweep.Json.Value

/-!
# The machine-readable report

The summary of a sweep as one JSON document. A path can stand in it only if it is UTF-8; if any is
not, there is no document and the report is an empty line.
-/

namespace DebugSweep.Report

/-- A path as a JSON string, if it is UTF-8. -/
def pathJson? (path : Path) : Option Json :=
  (Utf8.decode? path.bytes).map fun characters => .string (String.ofList characters)

/-- An outcome as a JSON object; the error is a member only where there is one. -/
def outcomeJson? (outcome : Outcome) : Option Json := do
  let path ← pathJson? outcome.path
  some (.object
    ([("path", path),
      ("status", .string outcome.status.name),
      ("removed", .number outcome.removed),
      ("modified", .bool outcome.modified)] ++
    (outcome.error.map fun error => ("error", Json.string error)).toList))

/-- The outcomes as JSON objects, in order. -/
def outcomesJson? : List Outcome → Option (List Json)
  | [] => some []
  | outcome :: outcomes => do
    let first ← outcomeJson? outcome
    let rest ← outcomesJson? outcomes
    some (first :: rest)

/-- The summary as a JSON object. -/
def summaryJson? (summary : Summary) : Option Json := do
  let root ← pathJson? summary.root
  let outcomes ← outcomesJson? summary.outcomes
  some (.object
    [("root", root),
      ("strategy", .string summary.strategy.name),
      ("dry_run", .bool summary.dryRun),
      ("files_processed", .number summary.processed),
      ("files_modified", .number summary.modified),
      ("files_excluded", .number summary.excluded),
      ("files_failed", .number summary.failed),
      ("total_removed", .number summary.removed),
      ("outcomes", .array outcomes)])

/-- What the machine-readable report prints. -/
def document (summary : Summary) : String :=
  ((summaryJson? summary).map Json.write).getD "" ++ "\n"

end DebugSweep.Report
