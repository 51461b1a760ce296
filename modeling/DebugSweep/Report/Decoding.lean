import DebugSweep.Json.Reader
import DebugSweep.Sweep.Outcome

/-!
# What the machine-readable report says

A reader of the report looks up the members by their names, wherever they stand in their objects.
An outcome without the member for its error has none.
-/

namespace DebugSweep

/-- The status written by exactly this name. -/
def Status.ofName? (name : String) : Option Status :=
  [Status.excluded, .unchanged, .cleaned, .failed].find? (·.name == name)

namespace Report

open Json (Datum)

/-- The path that a string names. -/
def pathOf? (datum : Datum) : Option Path := datum.text?.map Path.ofString

/-- The error of an outcome, if it has one. -/
def errorOf? (datum : Datum) : Option (Option String) :=
  match datum.member? "error" with
  | none => some none
  | some error => error.text?.map some

/-- The outcome that an object describes. -/
def outcomeOf? (datum : Datum) : Option Outcome := do
  let path ← datum.member? "path" >>= pathOf?
  let status ← datum.member? "status" >>= Datum.text? >>= Status.ofName?
  let removed ← datum.member? "removed" >>= Datum.natural?
  let modified ← datum.member? "modified" >>= Datum.bool?
  let error ← errorOf? datum
  some ⟨path, status, removed, modified, error⟩

/-- The summary that an object describes. -/
def summaryOf? (datum : Datum) : Option Summary := do
  let root ← datum.member? "root" >>= pathOf?
  let strategy ← datum.member? "strategy" >>= Datum.text? >>= Strip.Strategy.ofName?
  let dryRun ← datum.member? "dry_run" >>= Datum.bool?
  let processed ← datum.member? "files_processed" >>= Datum.natural?
  let modified ← datum.member? "files_modified" >>= Datum.natural?
  let excluded ← datum.member? "files_excluded" >>= Datum.natural?
  let failed ← datum.member? "files_failed" >>= Datum.natural?
  let removed ← datum.member? "total_removed" >>= Datum.natural?
  let items ← datum.member? "outcomes" >>= Datum.items?
  let outcomes ← items.mapM outcomeOf?
  some ⟨root, strategy, dryRun, processed, modified, excluded, failed, removed, outcomes⟩

end Report

end DebugSweep
