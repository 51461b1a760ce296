import DebugSweep.Proofs.Strip.Reduction
import DebugSweep.Proofs.Sweep.Cleaning

/-!
# Stripping converges

What is reported as removed has been taken away: parentheses and terminators, of which stripping
never adds any. A file with statements to report therefore never counts as unchanged, and stripping
a text again and again, by whichever strategies, comes to an end.
-/

namespace DebugSweep

open Source (terminator)
open Strip

/-- A file in which stripping changes the content is not reported as unchanged. -/
theorem Cleaner.status_clean_ne_unchanged {cleaner : Cleaner} {session : Session} {path : Path}
    {content : Bytes} (hread : session.tree.read path = .ok content)
    (hchanged : (strip cleaner.strategy content).text ≠ content) :
    (cleaner.clean session path).2.status ≠ .unchanged := by
  simp only [clean, stripFile, hread, hchanged, if_false]
  cases hexcluded : cleaner.excludes path with
  | true => exact Status.noConfusion
  | false =>
    cases Utf8.isValid content with
    | false => exact Status.noConfusion
    | true =>
      cases cleaner.dryRun with
      | true => exact Status.noConfusion
      | false =>
        cases session.tree.write path (strip cleaner.strategy content).text with
        | error fault => exact Status.noConfusion
        | ok written => exact Status.noConfusion

/-- Stripping only ever consumes, under either strategy: of parentheses and terminators at least as
many go as statements are reported as removed, and no newline and no line is added. A text has
changed if and only if it has fewer terminators. Where statements are reported it has, and no file
of that content counts as unchanged; the scan reports statements wherever it changes a text. Of the
strips that a text goes through, by any strategies, no more change it than it has terminators. -/
theorem strip_consumes (strategy : Strategy) (text : Bytes) :
    let out := strip strategy text
    (out.text.count Byte.openParen + out.removed ≤ text.count Byte.openParen ∧
      out.text.count Byte.closeParen + out.removed ≤ text.count Byte.closeParen ∧
      out.text.count terminator + out.removed ≤ text.count terminator ∧
      out.text.count Byte.newline ≤ text.count Byte.newline ∧
      (Text.lines out.text).length ≤ (Text.lines text).length) ∧
    (out.text ≠ text ↔ out.text.count terminator < text.count terminator) ∧
    (0 < out.removed → out.text ≠ text ∧
      ∀ (cleaner : Cleaner) (session : Session) (path : Path), cleaner.strategy = strategy →
        session.tree.read path = .ok text → (cleaner.clean session path).2.status ≠ .unchanged) ∧
    ((strip .scan text).text ≠ text ↔ 0 < (strip .scan text).removed) ∧
    ∀ strategies, changes strategies text ≤ text.count terminator := by
  have h := consumed_strip strategy text
  refine ⟨⟨h.openParen, h.closeParen, h.terminator, h.newline, h.lines⟩, h.reduced.ne_iff, ?_,
    strip_scan_ne_iff text, fun strategies => changes_le strategies text⟩
  intro hremoved
  refine ⟨h.ne_of_pos hremoved, ?_⟩
  rintro cleaner session path rfl hread
  exact Cleaner.status_clean_ne_unchanged hread (h.ne_of_pos hremoved)

/-- A call whose argument holds another one, which the broad pass takes first. -/
def nestedCalls : Bytes := ascii "print(1);\nprint('a; print(f(2)); b');\n"

/-- A directory with a file of that content. -/
def nestedTree : Tree :=
  ⟨[], [([], .directory .full), ([ascii "a.dart"], .file .full nestedCalls)]⟩

/-- Two of three strips change the text, and the first one reports less than it takes away. -/
theorem strip_consumes_nestedCalls :
    (strip .legacy nestedCalls).removed = 1 ∧
      nestedTree.read ⟨ascii "a.dart"⟩ = .ok nestedCalls ∧
      (Cleaner.clean ⟨"", .legacy, false⟩ (.start nestedTree) ⟨ascii "a.dart"⟩).2.status ≠
        .unchanged ∧
      changes [.legacy, .legacy, .scan] nestedCalls = 2 ∧ 2 ≤ nestedCalls.count terminator := by
  have hremoved : (strip .legacy nestedCalls).removed = 1 := by decide
  have hread : (Session.start nestedTree).tree.read ⟨ascii "a.dart"⟩ = .ok nestedCalls := by rfl
  have hchanges : changes [.legacy, .legacy, .scan] nestedCalls = 2 := by decide
  obtain ⟨-, -, hreported, -, hconverges⟩ := strip_consumes .legacy nestedCalls
  refine ⟨hremoved, hread, ?_, hchanges, hchanges ▸ hconverges [.legacy, .legacy, .scan]⟩
  exact (hreported (by rw [hremoved]; exact Nat.one_pos)).2 _ _ _ rfl hread

end DebugSweep
