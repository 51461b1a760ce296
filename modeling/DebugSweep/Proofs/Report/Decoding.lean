import DebugSweep.Proofs.Json.Reading
import DebugSweep.Proofs.Report.Failures
import DebugSweep.Proofs.Text.Decoding
import DebugSweep.Report.Decoding
import DebugSweep.Report.Mode

/-!
# The machine-readable report tells the whole summary

If the root and the paths of all outcomes are UTF-8, the report is one JSON text and an end of line.
Reading it gives back the summary with every outcome, whatever characters the paths and the errors
hold, so two such summaries have the same report only if they are equal
(`exists_summaryOf?_closing`).
-/

namespace DebugSweep.Report

open Json (Datum)

/-- A status is read back from its name. -/
theorem ofName?_name (status : Status) : Status.ofName? status.name = some status := by
  cases status <;> rfl

theorem strategyOfName?_name (strategy : Strip.Strategy) :
    Strip.Strategy.ofName? strategy.name = some strategy := by
  cases strategy <;> rfl

/-- A path is read back from the string it stands in. -/
theorem pathOf?_of_pathJson? {path : Path} {json : Json} (h : pathJson? path = some json) :
    pathOf? json.datum = some path := by
  obtain ⟨characters, hcharacters, rfl⟩ := Option.map_eq_some_iff.mp h
  rw [pathOf?, Json.text?_datum, Option.map_some, Path.ofString, String.toList_ofList,
    Utf8.encode_of_decode? hcharacters]

/-- An outcome is read back from its object, in which the error is a member where there is one. -/
theorem outcomeOf?_of_outcomeJson? {outcome : Outcome} {json : Json}
    (h : outcomeJson? outcome = some json) :
    outcomeOf? json.datum = some outcome ∧
      ((json.datum.member? "error").isSome ↔ outcome.error.isSome) := by
  obtain ⟨path, status, removed, modified, error⟩ := outcome
  obtain ⟨root, hpath, hobject⟩ := Option.bind_eq_some_iff.mp h
  cases hobject
  have hread : pathOf? root.datum = some path := pathOf?_of_pathJson? hpath
  cases error with
  | none =>
    simp [outcomeOf?, errorOf?, Json.member?_datum, List.lookup_cons, hread, ofName?_name]
  | some error =>
    simp [outcomeOf?, errorOf?, Json.member?_datum, List.lookup_cons, hread, ofName?_name]

/-- The outcomes are read back from their objects. -/
theorem mapM_outcomeOf?_of_outcomesJson? {outcomes : List Outcome} {items : List Json}
    (h : outcomesJson? outcomes = some items) :
    (Json.itemData items).mapM outcomeOf? = some outcomes ∧
      List.Forall₂ (fun item outcome =>
        (item.member? "error").isSome ↔ outcome.error.isSome) (Json.itemData items) outcomes := by
  induction outcomes generalizing items with
  | nil =>
    cases h
    exact ⟨rfl, .nil⟩
  | cons outcome outcomes ih =>
    obtain ⟨first, hfirst, hmore⟩ := Option.bind_eq_some_iff.mp h
    obtain ⟨rest, hrest, hitems⟩ := Option.bind_eq_some_iff.mp hmore
    cases hitems
    obtain ⟨houtcome, herror⟩ := outcomeOf?_of_outcomeJson? hfirst
    obtain ⟨houtcomes, herrors⟩ := ih hrest
    exact ⟨by simp [Json.itemData, houtcome, houtcomes], .cons herror herrors⟩

/-- A summary is read back from its object, in which each outcome has a member for its error where
it has one. -/
theorem summaryOf?_of_summaryJson? {summary : Summary} {json : Json}
    (h : summaryJson? summary = some json) :
    summaryOf? json.datum = some summary ∧ ∃ items,
      json.datum.member? "outcomes" = some (.array items) ∧
        List.Forall₂ (fun item outcome =>
          (item.member? "error").isSome ↔ outcome.error.isSome) items summary.outcomes := by
  obtain ⟨root, hroot, hmore⟩ := Option.bind_eq_some_iff.mp h
  obtain ⟨items, hitems, hobject⟩ := Option.bind_eq_some_iff.mp hmore
  cases hobject
  have hread := pathOf?_of_pathJson? hroot
  obtain ⟨houtcomes, herrors⟩ := mapM_outcomeOf?_of_outcomesJson? hitems
  refine ⟨?_, Json.itemData items, ?_, herrors⟩
  · simp [summaryOf?, Json.member?_datum, List.lookup_cons, hread, strategyOfName?_name, houtcomes]
  · rw [Json.member?_datum]
    rfl

/-- A summary of which every path is UTF-8 is printed as its object, and an end of line. -/
theorem exists_closing_eq_write {summary : Summary} (htext : summary.IsText) :
    ∃ json, summaryJson? summary = some json ∧
      Mode.json.closing summary = json.write ++ "\n" := by
  rcases summaryJson?_cases summary with ⟨-, members, -, hjson, -⟩ | ⟨hnotext, -⟩
  · refine ⟨.object members, hjson, ?_⟩
    rw [Mode.closing, document, hjson]
    rfl
  · exact absurd htext hnotext

/-- What a reader makes of the report is the summary. -/
theorem read?_write_bind_summaryOf? {summary : Summary} {json : Json}
    (h : summaryJson? summary = some json) :
    (Json.read? json.write).bind summaryOf? = some summary := by
  rw [Json.read?_write, Option.bind_some, (summaryOf?_of_summaryJson? h).1]

/-- The report for machines on a summary of which every path is UTF-8 is one JSON text and an end of
line. What it says is the summary, with the error of an outcome as a member exactly where there is
one, and no other such summary has the same report. -/
theorem exists_summaryOf?_closing {summary : Summary} (htext : summary.IsText) :
    ∃ text datum items,
      Mode.json.closing summary = text ++ "\n" ∧ Json.read? text = some datum ∧
        summaryOf? datum = some summary ∧ datum.member? "outcomes" = some (.array items) ∧
        List.Forall₂ (fun item outcome =>
          (item.member? "error").isSome ↔ outcome.error.isSome) items summary.outcomes ∧
        ∀ other : Summary, other.IsText →
          Mode.json.closing other = Mode.json.closing summary → other = summary := by
  obtain ⟨json, hjson, hclosing⟩ := exists_closing_eq_write htext
  obtain ⟨hsummary, items, hitems, herrors⟩ := summaryOf?_of_summaryJson? hjson
  refine ⟨json.write, json.datum, items, hclosing, Json.read?_write json, hsummary, hitems,
    herrors, fun other hother hsame => ?_⟩
  obtain ⟨json', hjson', hclosing'⟩ := exists_closing_eq_write hother
  have hwrite : json'.write = json.write := by
    rw [hclosing, hclosing'] at hsame
    exact (String.append_left_inj _).mp hsame
  have hread := read?_write_bind_summaryOf? hjson'
  rw [hwrite, read?_write_bind_summaryOf? hjson] at hread
  exact (Option.some.inj hread).symm

/-- A summary with all that has to be escaped, and more: quotes, backslashes, control characters,
ends of line and characters beyond ASCII in the paths and in an error. -/
def awkwardSummary : Summary where
  root := .ofString "a \"root\"\\\u007f"
  strategy := .scan
  dryRun := true
  processed := 1
  modified := 0
  excluded := 1
  failed := 1
  removed := 0
  outcomes := [
    ⟨.ofString "\u0001\n\t.dart", .failed, 0, false, some "no \"such\"\r\n\\ file: é𝄞\u0000"⟩,
    ⟨.ofString "é/𝄞,].dart", .excluded, 0, false, none⟩]

theorem exists_summaryOf?_closing_awkwardSummary :
    awkwardSummary.IsText ∧ ∃ text datum items,
      Mode.json.closing awkwardSummary = text ++ "\n" ∧ Json.read? text = some datum ∧
        summaryOf? datum = some awkwardSummary ∧
        datum.member? "outcomes" = some (.array items) ∧
        List.Forall₂ (fun item outcome =>
          (item.member? "error").isSome ↔ outcome.error.isSome) items awkwardSummary.outcomes ∧
        ∀ other : Summary, other.IsText →
          Mode.json.closing other = Mode.json.closing awkwardSummary → other = awkwardSummary := by
  have htext : awkwardSummary.IsText := by
    rw [Summary.IsText]
    decide +kernel
  exact ⟨htext, exists_summaryOf?_closing htext⟩

end DebugSweep.Report
