import Mathlib.Tactic.ByContra
import DebugSweep.Proofs.Sweep.Cleaning

/-!
# Cleaning a file is all or nothing

Cleaning a file can go in seven ways (`Cleaner.Effect`), each of which has one outcome, and only one
of them writes. A file that is written holds its stripped text as a whole, and the outcome says so;
whatever else is reported, every file holds what it held before (`AllOrNothing`). Which way it goes
is decided by the path, the file the path leads to and the cleaner.
-/

namespace DebugSweep

open Strip (strip)

/-- What cleaning the file at a path makes of a tree, with the outcome it reports. -/
inductive Cleaner.Effect (cleaner : Cleaner) (path : Path) (tree : Tree) : Tree → Outcome → Prop
  | excluded (hexcludes : cleaner.excludes path = true) :
      cleaner.Effect path tree tree (.excluded path)
  | unreadable {fault : Fault} (hexcludes : cleaner.excludes path = false)
      (hread : tree.read path = .error fault) :
      cleaner.Effect path tree tree (.failed path (.read path fault))
  | undecodable {content : Bytes} (hexcludes : cleaner.excludes path = false)
      (hread : tree.read path = .ok content) (hvalid : Utf8.isValid content = false) :
      cleaner.Effect path tree tree (.failed path (.decode path))
  | unchanged {content : Bytes} (hexcludes : cleaner.excludes path = false)
      (hread : tree.read path = .ok content) (hvalid : Utf8.isValid content = true)
      (hsame : (strip cleaner.strategy content).text = content) :
      cleaner.Effect path tree tree (.unchanged path)
  /-- In a dry run the statements are counted. -/
  | foretold {content : Bytes} (hexcludes : cleaner.excludes path = false)
      (hread : tree.read path = .ok content) (hvalid : Utf8.isValid content = true)
      (hchanged : (strip cleaner.strategy content).text ≠ content)
      (hdryRun : cleaner.dryRun = true) :
      cleaner.Effect path tree tree
        (.cleaned path (strip cleaner.strategy content).removed)
  | unwritable {content : Bytes} {fault : Fault} (hexcludes : cleaner.excludes path = false)
      (hread : tree.read path = .ok content) (hvalid : Utf8.isValid content = true)
      (hchanged : (strip cleaner.strategy content).text ≠ content)
      (hdryRun : cleaner.dryRun = false)
      (hwrite : tree.write path (strip cleaner.strategy content).text = .error fault) :
      cleaner.Effect path tree tree (.failed path (.write path fault))
  | written {content : Bytes} {after : Tree} (hexcludes : cleaner.excludes path = false)
      (hread : tree.read path = .ok content) (hvalid : Utf8.isValid content = true)
      (hchanged : (strip cleaner.strategy content).text ≠ content)
      (hdryRun : cleaner.dryRun = false)
      (hwrite : tree.write path (strip cleaner.strategy content).text = .ok after) :
      cleaner.Effect path tree after
        (.cleaned path (strip cleaner.strategy content).removed)

namespace Cleaner

/-- Cleaning goes in one of these ways. -/
theorem effect_clean (cleaner : Cleaner) (session : Session) (path : Path) :
    cleaner.Effect path session.tree (cleaner.clean session path).1.tree
      (cleaner.clean session path).2 := by
  rw [clean, stripFile]
  cases hexcludes : cleaner.excludes path with
  | true => exact .excluded hexcludes
  | false =>
    cases hread : session.tree.read path with
    | error fault => exact .unreadable hexcludes hread
    | ok content =>
      cases hvalid : Utf8.isValid content with
      | false =>
        simp only [hvalid]
        exact .undecodable hexcludes hread hvalid
      | true =>
        by_cases hsame : (strip cleaner.strategy content).text = content
        · simp only [hvalid, hsame]
          exact .unchanged hexcludes hread hvalid hsame
        · simp only [hvalid, hsame]
          cases hdryRun : cleaner.dryRun with
          | true => exact .foretold hexcludes hread hvalid hsame hdryRun
          | false =>
            cases hwrite : session.tree.write path (strip cleaner.strategy content).text with
            | error fault => exact .unwritable hexcludes hread hvalid hsame hdryRun hwrite
            | ok after => exact .written hexcludes hread hvalid hsame hdryRun hwrite

end Cleaner

/-- A file of this mode and content cannot be read or decoded, or it would be changed and cannot be
written. -/
def Cleaner.Refuses (cleaner : Cleaner) (mode : Mode) (content : Bytes) : Prop :=
  mode.readable = false ∨ Utf8.isValid content = false ∨
    ((strip cleaner.strategy content).text ≠ content ∧ cleaner.dryRun = false ∧
      mode.writable = false)

/-- The content of the file at an address is that of its node. -/
theorem Tree.contentAt?_of_nodeAt? {tree : Tree} {place : Address} {mode : Mode} {content : Bytes}
    (h : tree.nodeAt? place = some (.file mode content)) :
    tree.contentAt? place = some content := by
  rw [contentAt?, h]

namespace Cleaner.Effect

variable {cleaner : Cleaner} {path : Path} {tree after : Tree} {outcome : Outcome}

/-- Where a file has been written its path leads to a file that could be read, and the new content
stands there and nowhere else. -/
theorem exists_written {content new : Bytes} (hread : tree.read path = .ok content)
    (hwrite : tree.write path new = .ok after) :
    ∃ place, tree.layout.address true path = .ok place ∧ tree.contentAt? place = some content ∧
      after.contentAt? place = some new ∧ after = tree.setContent place new := by
  obtain ⟨place, mode, hplace, hfile, -⟩ := Tree.exists_of_read hread
  obtain ⟨place', hplace', rfl⟩ := Tree.exists_of_write hwrite
  obtain rfl := Except.ok.inj (hplace.symm.trans hplace')
  exact ⟨place, hplace, Tree.contentAt?_of_nodeAt? hfile,
    Tree.contentAt?_of_nodeAt? (Tree.nodeAt?_setContent_self hfile new), rfl⟩

/-- Only a file that is reported as cleaned has been written, and not in a dry run. -/
theorem tree_eq (h : cleaner.Effect path tree after outcome)
    (hspared : outcome.status ≠ .cleaned ∨ cleaner.dryRun = true) : after = tree := by
  cases h with
  | written _ _ _ _ hdryRun _ =>
    rcases hspared with hstatus | hdryRun'
    · exact absurd rfl hstatus
    · rw [hdryRun] at hdryRun'
      cases hdryRun'
  | _ => rfl

/-- A file that is reported as cleaned has a text that stripping changes, and holds that text or, in
a dry run, what it held. -/
theorem exists_cleaned (h : cleaner.Effect path tree after outcome)
    (hstatus : outcome.status = .cleaned) :
    ∃ place content, tree.layout.address true path = .ok place ∧
      tree.contentAt? place = some content ∧
      (strip cleaner.strategy content).text ≠ content ∧
      outcome.removed = (strip cleaner.strategy content).removed ∧
      after.contentAt? place =
        some (if cleaner.dryRun then content else (strip cleaner.strategy content).text) := by
  cases h with
  | foretold _ hread _ hchanged hdryRun =>
    obtain ⟨place, mode, hplace, hfile, -⟩ := Tree.exists_of_read hread
    have hcontent := Tree.contentAt?_of_nodeAt? hfile
    exact ⟨place, _, hplace, hcontent, hchanged, rfl, by rw [hcontent, hdryRun, if_pos rfl]⟩
  | written _ hread _ hchanged hdryRun hwrite =>
    obtain ⟨place, hplace, hcontent, hnew, -⟩ := exists_written hread hwrite
    refine ⟨place, _, hplace, hcontent, hchanged, rfl, ?_⟩
    rw [hnew, hdryRun, if_neg Bool.false_ne_true]
  | _ => cases hstatus

/-- A path is reported as excluded if it is. -/
theorem excluded_iff (h : cleaner.Effect path tree after outcome) :
    outcome.status = .excluded ↔ cleaner.excludes path = true := by
  cases h <;> simp_all [Outcome.excluded, Outcome.failed, Outcome.unchanged, Outcome.cleaned]

/-- Whether a file that is not excluded fails is decided by its mode and its content. -/
theorem failed_iff_refuses {place : Address} {mode : Mode} {content : Bytes}
    (h : cleaner.Effect path tree after outcome) (hexcludes : cleaner.excludes path = false)
    (hplace : tree.layout.address true path = .ok place)
    (hfile : tree.nodeAt? place = some (.file mode content)) :
    outcome.status = .failed ↔ cleaner.Refuses mode content := by
  have hreads := Tree.read_file hplace hfile
  have hwrites := Tree.write_file hplace hfile (strip cleaner.strategy content).text
  cases hreadable : mode.readable with
  | false =>
    rw [hreadable] at hreads
    have hrefuses : cleaner.Refuses mode content := .inl hreadable
    cases h with
    | excluded hexcludes' => cases hexcludes.symm.trans hexcludes'
    | unreadable => exact iff_of_true rfl hrefuses
    | undecodable _ hread _ => cases hreads.symm.trans hread
    | unchanged _ hread _ _ => cases hreads.symm.trans hread
    | foretold _ hread _ _ _ => cases hreads.symm.trans hread
    | unwritable _ hread _ _ _ _ => cases hreads.symm.trans hread
    | written _ hread _ _ _ _ => cases hreads.symm.trans hread
  | true =>
    rw [hreadable, if_pos rfl] at hreads
    rw [Refuses, hreadable]
    cases h with
    | excluded hexcludes' => cases hexcludes.symm.trans hexcludes'
    | unreadable _ hread => cases hreads.symm.trans hread
    | undecodable _ hread hvalid =>
      obtain rfl := Except.ok.inj (hreads.symm.trans hread)
      exact iff_of_true rfl (.inr (.inl hvalid))
    | unchanged _ hread hvalid hsame =>
      obtain rfl := Except.ok.inj (hreads.symm.trans hread)
      refine iff_of_false Status.noConfusion ?_
      simp [hvalid, hsame]
    | foretold _ hread hvalid hchanged hdryRun =>
      obtain rfl := Except.ok.inj (hreads.symm.trans hread)
      refine iff_of_false Status.noConfusion ?_
      simp [hvalid, hdryRun]
    | unwritable _ hread hvalid hchanged hdryRun hwrite =>
      obtain rfl := Except.ok.inj (hreads.symm.trans hread)
      refine iff_of_true rfl (.inr (.inr ⟨hchanged, hdryRun, ?_⟩))
      cases hwritable : mode.writable with
      | false => rfl
      | true =>
        rw [hwritable, if_pos rfl, hwrite] at hwrites
        cases hwrites
    | written _ hread hvalid hchanged hdryRun hwrite =>
      obtain rfl := Except.ok.inj (hreads.symm.trans hread)
      refine iff_of_false Status.noConfusion ?_
      cases hwritable : mode.writable with
      | false =>
        rw [hwritable, if_neg Bool.false_ne_true, hwrite] at hwrites
        cases hwrites
      | true => simp [hvalid]

/-- What is neither excluded nor a file fails. -/
theorem failed_of_no_file (h : cleaner.Effect path tree after outcome)
    (hexcludes : cleaner.excludes path = false)
    (hnone : ∀ place mode content, tree.layout.address true path = .ok place →
      tree.nodeAt? place ≠ some (.file mode content)) : outcome.status = .failed := by
  have hread (content : Bytes) : tree.read path ≠ .ok content := by
    intro hread
    obtain ⟨place, mode, hplace, hfile, -⟩ := Tree.exists_of_read hread
    exact hnone place mode content hplace hfile
  cases h with
  | excluded hexcludes' => cases hexcludes.symm.trans hexcludes'
  | unreadable => rfl
  | undecodable => rfl
  | unchanged _ hcontent _ _ => exact absurd hcontent (hread _)
  | foretold _ hcontent _ _ _ => exact absurd hcontent (hread _)
  | unwritable => rfl
  | written _ hcontent _ _ _ _ => exact absurd hcontent (hread _)

/-- A path fails if and only if it is not excluded and leads to no file or to one that cannot be
cleaned. -/
theorem failed_iff (h : cleaner.Effect path tree after outcome) :
    outcome.status = .failed ↔ cleaner.excludes path = false ∧
      ∀ place mode content, tree.layout.address true path = .ok place →
        tree.nodeAt? place = some (.file mode content) → cleaner.Refuses mode content := by
  constructor
  · intro hfailed
    have hexcludes : cleaner.excludes path = false := by
      rw [← Bool.not_eq_true, ← h.excluded_iff, hfailed]
      exact Status.noConfusion
    exact ⟨hexcludes, fun place mode content hplace hfile =>
      (h.failed_iff_refuses hexcludes hplace hfile).mp hfailed⟩
  · rintro ⟨hexcludes, hrefuses⟩
    by_cases hfile : ∃ place mode content, tree.layout.address true path = .ok place ∧
        tree.nodeAt? place = some (.file mode content)
    · obtain ⟨place, mode, content, hplace, hfile⟩ := hfile
      exact (h.failed_iff_refuses hexcludes hplace hfile).mpr (hrefuses _ _ _ hplace hfile)
    · exact h.failed_of_no_file hexcludes fun place mode content hplace hcontent =>
        hfile ⟨place, mode, content, hplace, hcontent⟩

/-- Some file changes if and only if one is reported as cleaned, and not in a dry run. -/
theorem changed_iff (h : cleaner.Effect path tree after outcome) :
    (∃ address, after.contentAt? address ≠ tree.contentAt? address) ↔
      outcome.status = .cleaned ∧ cleaner.dryRun = false := by
  constructor
  · rintro ⟨address, hchanged⟩
    by_contra hspared
    rw [not_and_or, Bool.not_eq_false] at hspared
    rw [h.tree_eq hspared] at hchanged
    exact hchanged rfl
  · rintro ⟨hstatus, hdryRun⟩
    obtain ⟨place, content, -, hcontent, hchanged, -, hnew⟩ := h.exists_cleaned hstatus
    rw [hdryRun, if_neg Bool.false_ne_true] at hnew
    refine ⟨place, ?_⟩
    rw [hcontent, hnew, ne_eq, Option.some.injEq]
    exact hchanged

/-- The parts of an outcome agree with its status. -/
theorem consistent (h : cleaner.Effect path tree after outcome) :
    (outcome.modified = true ↔ outcome.status = .cleaned) ∧
      (outcome.error.isSome = true ↔ outcome.status = .failed) ∧
      (outcome.status ≠ .cleaned → outcome.removed = 0) := by
  cases h <;> simp [Outcome.excluded, Outcome.failed, Outcome.unchanged, Outcome.cleaned]

end Cleaner.Effect

/-- What cleaning a file does to a tree and reports, all or nothing: the file that the path leads to
holds its stripped text and is reported as cleaned, or everything is as it was. -/
structure AllOrNothing (cleaner : Cleaner) (path : Path) (before after : Tree)
    (outcome : Outcome) : Prop where
  elsewhere : ∀ address, before.layout.address true path ≠ .ok address →
    after.nodeAt? address = before.nodeAt? address
  layout : after.layout = before.layout
  changed_iff : (∃ address, after.contentAt? address ≠ before.contentAt? address) ↔
    outcome.status = .cleaned ∧ cleaner.dryRun = false
  cleaned : outcome.status = .cleaned →
    ∃ place content, before.layout.address true path = .ok place ∧
      before.contentAt? place = some content ∧ (strip cleaner.strategy content).text ≠ content ∧
      outcome.removed = (strip cleaner.strategy content).removed ∧
      after.contentAt? place =
        some (if cleaner.dryRun then content else (strip cleaner.strategy content).text)
  untouched : outcome.status ≠ .cleaned ∨ cleaner.dryRun = true → after = before
  excluded_iff : outcome.status = .excluded ↔ cleaner.excludes path = true
  failed_iff : outcome.status = .failed ↔ cleaner.excludes path = false ∧
    ∀ place mode content, before.layout.address true path = .ok place →
      before.nodeAt? place = some (.file mode content) → cleaner.Refuses mode content
  modified_iff : outcome.modified = true ↔ outcome.status = .cleaned
  error_iff : outcome.error.isSome = true ↔ outcome.status = .failed
  removed : outcome.status ≠ .cleaned → outcome.removed = 0

/-- Cleaning a file does all or nothing. -/
theorem clean_all_or_nothing (cleaner : Cleaner) (session : Session) (path : Path) :
    AllOrNothing cleaner path session.tree (cleaner.clean session path).1.tree
      (cleaner.clean session path).2 := by
  have heffect := cleaner.effect_clean session path
  obtain ⟨hmodified, herror, hremoved⟩ := heffect.consistent
  exact {
    elsewhere := fun _ hother => cleaner.nodeAt?_clean_of_ne hother
    layout := cleaner.layout_clean session path
    changed_iff := heffect.changed_iff
    cleaned := heffect.exists_cleaned
    untouched := heffect.tree_eq
    excluded_iff := heffect.excluded_iff
    failed_iff := heffect.failed_iff
    modified_iff := hmodified
    error_iff := herror
    removed := hremoved }

end DebugSweep
