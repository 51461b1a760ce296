import Mathlib.Data.List.Forall2
import DebugSweep.Proofs.Strip.Validity
import DebugSweep.Proofs.Sweep.Turns

/-!
# A second run finds nothing more

Where every text that a run reads is settled by one strip, an entry is at rest after its turn: its
file has been stripped, or was spared and still is. The turns of other entries do not disturb it,
also where they lead to the same file. After a run all entries are at rest, so a second run changes
nothing and reports what the first one did, with unchanged in place of cleaned (`run_again`).
-/

namespace DebugSweep

/-- A second strip leaves what the first one has made of the text. -/
def Strip.Settles (strategy : Strip.Strategy) (text : Bytes) : Prop :=
  (strip strategy (strip strategy text).text).text = (strip strategy text).text

instance (strategy : Strip.Strategy) (text : Bytes) : Decidable (Strip.Settles strategy text) :=
  inferInstanceAs (Decidable (_ = _))

/-- The outcome of the same place in a second run: what has been cleaned is unchanged. -/
def Outcome.again (outcome : Outcome) : Outcome :=
  if outcome.status = .cleaned then .unchanged outcome.path else outcome

namespace Summary

/-- No status changes but the one of what has been cleaned. -/
theorem status_again (outcome : Outcome) :
    outcome.again.status =
      if outcome.status = .cleaned then .unchanged else outcome.status := by
  rw [Outcome.again]
  split <;> rfl

/-- The totals of a second run are those of the first one, with nothing modified or removed. -/
theorem withAll_map_again (root : Path) (strategy : Strip.Strategy) (dryRun : Bool)
    (outcomes : List Outcome) :
    (empty root strategy dryRun).withAll (outcomes.map Outcome.again) =
      { (empty root strategy dryRun).withAll outcomes with
        modified := 0
        removed := 0
        outcomes := outcomes.map Outcome.again } := by
  have hprocessed (outcome : Outcome) :
      (outcome.again.status != .failed) = (outcome.status != .failed) := by
    rw [status_again]
    cases outcome.status <;> rfl
  have hexcluded (outcome : Outcome) :
      (outcome.again.status == .excluded) = (outcome.status == .excluded) := by
    rw [status_again]
    cases outcome.status <;> rfl
  have hfailed (outcome : Outcome) :
      (outcome.again.status == .failed) = (outcome.status == .failed) := by
    rw [status_again]
    cases outcome.status <;> rfl
  have hcleaned (outcome : Outcome) : (outcome.again.status == .cleaned) = false := by
    rw [status_again]
    cases outcome.status <;> rfl
  simp only [withAll, empty, List.countP_map, List.filter_map, Function.comp_def, hprocessed,
    hexcluded, hfailed, hcleaned, List.countP_false, Function.const_apply, List.filter_false,
    List.map_nil, List.foldl_nil, Nat.zero_add, List.nil_append]

end Summary

namespace Cleaner

/-- The text that is read and decoded for an entry. -/
def textOf? (cleaner : Cleaner) (tree : Tree) : Entry → Option Bytes
  | .error _ => none
  | .ok path =>
    if cleaner.excludes path then none
    else
      match tree.read path with
      | .error _ => none
      | .ok content => if Utf8.isValid content then some content else none

section File

variable {cleaner : Cleaner} {tree : Tree} {path : Path} {address : Address} {mode : Mode}
  {content : Bytes}

/-- The outcome of a file is decided by its mode and its content. -/
theorem outcomeOf_file (root : Path) (hplace : tree.layout.address true path = .ok address)
    (hfile : tree.nodeAt? address = some (.file mode content)) :
    cleaner.outcomeOf root tree (.ok path) =
      if cleaner.excludes path then .excluded path
      else if !mode.readable then .failed path (.read path (.system .permissionDenied))
      else if !Utf8.isValid content then .failed path (.decode path)
      else if (Strip.strip cleaner.strategy content).text = content then .unchanged path
      else if cleaner.dryRun || mode.writable then
        .cleaned path (Strip.strip cleaner.strategy content).removed
      else .failed path (.write path (.system .permissionDenied)) := by
  rw [outcomeOf_ok, stripFile, Tree.read_file hplace hfile]
  simp only [Tree.write_file hplace hfile]
  cases cleaner.excludes path with
  | true => rfl
  | false =>
    cases mode.readable with
    | false => rfl
    | true =>
      simp only [↓reduceIte]
      cases Utf8.isValid content with
      | false => rfl
      | true =>
        by_cases hsame : (Strip.strip cleaner.strategy content).text = content
        · simp [hsame, Except.map]
        · cases cleaner.dryRun <;> cases mode.writable <;> simp [hsame, Except.map]

/-- A file that is not spared is cleaned. -/
theorem outcomeOf_of_not_spares (root : Path)
    (hplace : tree.layout.address true path = .ok address)
    (hfile : tree.nodeAt? address = some (.file mode content))
    (h : ¬ cleaner.Spares path mode content) :
    cleaner.outcomeOf root tree (.ok path) =
      .cleaned path (Strip.strip cleaner.strategy content).removed := by
  simp only [Spares, not_or, Bool.not_eq_true, Bool.not_eq_false] at h
  obtain ⟨hexcludes, hdryRun, hreadable, hwritable, hvalid, htext⟩ := h
  simp [outcomeOf_file root hplace hfile, hexcludes, hreadable, hvalid, htext, hwritable]

/-- The text of a file that is not spared is its content. -/
theorem textOf?_of_not_spares (hplace : tree.layout.address true path = .ok address)
    (hfile : tree.nodeAt? address = some (.file mode content))
    (h : ¬ cleaner.Spares path mode content) :
    cleaner.textOf? tree (.ok path) = some content := by
  simp only [Spares, not_or, Bool.not_eq_true, Bool.not_eq_false] at h
  obtain ⟨hexcludes, -, hreadable, -, hvalid, -⟩ := h
  simp [textOf?, hexcludes, Tree.read_file hplace hfile, hreadable, hvalid]

end File

variable {cleaner : Cleaner} {tree : Tree} {entry : Entry}

/-- Without a dry run an entry that changes nothing is not cleaned. -/
theorem status_outcomeOf_ne_cleaned (root : Path) (hwrites : cleaner.dryRun = false)
    (h : cleaner.change? tree entry = none) :
    (cleaner.outcomeOf root tree entry).status ≠ .cleaned := by
  cases entry with
  | error error => exact Status.noConfusion
  | ok path =>
    cases hread : tree.read path with
    | error fault =>
      rw [outcomeOf_ok, stripFile, hread]
      split <;> exact Status.noConfusion
    | ok content =>
      obtain ⟨address, mode, hplace, hfile, hreadable⟩ := Tree.exists_of_read hread
      have hspares := spares_of_change?_none hplace hfile h
      rw [outcomeOf_file root hplace hfile]
      split_ifs with hexcludes hunreadable hundecodable hsame hwritable
      · exact Status.noConfusion
      · exact Status.noConfusion
      · exact Status.noConfusion
      · exact Status.noConfusion
      · rw [hwrites, Bool.false_or] at hwritable
        rw [Bool.not_eq_true', Bool.not_eq_false] at hundecodable
        refine absurd hspares ?_
        simp [Spares, hexcludes, hwrites, hreadable, hwritable, hundecodable, hsame]
      · exact Status.noConfusion

/-- Dealing with the entry changes nothing in this tree, and has this outcome. -/
structure AtRest (cleaner : Cleaner) (root : Path) (tree : Tree) (entry : Entry)
    (outcome : Outcome) : Prop where
  change? : cleaner.change? tree entry = none
  outcomeOf : cleaner.outcomeOf root tree entry = outcome

/-- A path that is excluded is at rest in every tree. -/
theorem atRest_of_excludes {path : Path} (root : Path) (tree : Tree)
    (h : cleaner.excludes path = true) :
    cleaner.AtRest root tree (.ok path) (.excluded path) where
  change? := change?_eq_none_of_spares fun _ _ _ hpath => by
    cases hpath
    exact .inl h
  outcomeOf := by rw [outcomeOf_ok, if_pos h]

/-- An entry is at rest after its turn, with the outcome of a second run. -/
theorem atRest_next (root : Path) (hwrites : cleaner.dryRun = false)
    (hsettles : ∀ text ∈ cleaner.textOf? tree entry, Strip.Settles cleaner.strategy text) :
    cleaner.AtRest root (cleaner.next tree entry) entry
      (cleaner.outcomeOf root tree entry).again := by
  cases hchange : cleaner.change? tree entry with
  | none =>
    have hstatus := status_outcomeOf_ne_cleaned root hwrites hchange
    rw [next_of_change?_none hchange, Outcome.again, if_neg hstatus]
    exact ⟨hchange, rfl⟩
  | some change =>
    obtain ⟨address, text⟩ := change
    obtain ⟨path, mode, content, rfl, hplace, hfile, hspares, rfl⟩ :=
      change?_eq_some_iff.mp hchange
    have hsame : (Strip.strip cleaner.strategy (Strip.strip cleaner.strategy content).text).text =
        (Strip.strip cleaner.strategy content).text :=
      hsettles content (textOf?_of_not_spares hplace hfile hspares)
    have hcleaned := outcomeOf_of_not_spares root hplace hfile hspares
    simp only [Spares, not_or, Bool.not_eq_true, Bool.not_eq_false] at hspares
    obtain ⟨hexcludes, -, hreadable, -, hvalid, -⟩ := hspares
    have hplace' : (cleaner.next tree (.ok path)).layout.address true path = .ok address := by
      rwa [layout_next]
    have hfile' : (cleaner.next tree (.ok path)).nodeAt? address =
        some (.file mode (Strip.strip cleaner.strategy content).text) := by
      rw [next, hchange]
      exact Tree.nodeAt?_setContent_self hfile _
    have hspares' : cleaner.Spares path mode (Strip.strip cleaner.strategy content).text :=
      .inr (.inr (.inr (.inr (.inr hsame))))
    constructor
    · simp only [Cleaner.change?, hplace', hfile', if_pos hspares']
    · have hvalid' := Strip.isValid_strip cleaner.strategy hvalid
      rw [outcomeOf_file root hplace' hfile', hcleaned, hexcludes, hreadable, hvalid', if_pos hsame]
      rfl

/-- The turn of another entry leaves an entry at rest. -/
theorem AtRest.next {root : Path} {outcome : Outcome}
    (h : cleaner.AtRest root tree entry outcome) (other : Entry) :
    cleaner.AtRest root (cleaner.next tree other) entry outcome := by
  cases hchange : cleaner.change? tree other with
  | none => rwa [next_of_change?_none hchange]
  | some change =>
    by_cases hsame : tree.layout.fileOf? entry = some change.1
    · -- a file that another path changes is spared only where its own path is excluded
      obtain ⟨path, rfl, hplace⟩ := Layout.exists_of_fileOf? hsame
      obtain ⟨path', mode, content, -, -, hfile, hchanged, -⟩ := change?_eq_some_iff.mp hchange
      have hspares := spares_of_change?_none hplace hfile h.change?
      have hexcludes := hspares.resolve_right fun hspares => hchanged (.inr hspares)
      have houtcome := h.outcomeOf
      rw [(atRest_of_excludes root tree hexcludes).outcomeOf] at houtcome
      rw [← houtcome]
      exact atRest_of_excludes root _ hexcludes
    · have halike : Alike entry (cleaner.next tree other) tree := by
        refine ⟨layout_next cleaner tree other, fun address haddress => ?_⟩
        rw [Cleaner.next, hchange]
        refine Tree.nodeAt?_setContent_of_ne ?_ _ _
        rintro rfl
        exact hsame haddress
      have houtcome := @Alike.outcome_eq _ (.start (cleaner.next tree other)) _ halike cleaner root
      exact ⟨(halike.change?_eq cleaner).trans h.change?, houtcome.trans h.outcomeOf⟩

/-- Turns of other entries leave an entry at rest. -/
theorem AtRest.foldl_next {root : Path} {outcome : Outcome}
    (h : cleaner.AtRest root tree entry outcome) (others : List Entry) :
    cleaner.AtRest root (others.foldl cleaner.next tree) entry outcome := by
  induction others generalizing tree with
  | nil => exact h
  | cons other others ih => exact ih (h.next other)

/-- After a sweep all its entries are at rest, with the outcomes of a second run. -/
theorem atRest_turns (root : Path) (hwrites : cleaner.dryRun = false) {entries : List Entry}
    (hsettles : ∀ turn ∈ cleaner.turns tree entries,
      ∀ text ∈ cleaner.textOf? turn.tree turn.entry, Strip.Settles cleaner.strategy text) :
    List.Forall₂ (cleaner.AtRest root (entries.foldl cleaner.next tree)) entries
      (((cleaner.turns tree entries).map (cleaner.outcomeAt root)).map Outcome.again) := by
  induction entries generalizing tree with
  | nil => exact .nil
  | cons entry entries ih =>
    rw [turns, List.forall_mem_cons] at hsettles
    exact .cons ((atRest_next root hwrites hsettles.1).foldl_next entries) (ih hsettles.2)

/-- Entries at rest change nothing in their turns, and have their outcomes. -/
theorem turns_of_atRest {root : Path} {entries : List Entry} {outcomes : List Outcome}
    (h : List.Forall₂ (cleaner.AtRest root tree) entries outcomes) :
    entries.foldl cleaner.next tree = tree ∧
      (cleaner.turns tree entries).map (cleaner.outcomeAt root) = outcomes := by
  induction h with
  | nil => exact ⟨rfl, rfl⟩
  | cons hentry _ ih =>
    rw [List.foldl_cons, turns, next_of_change?_none hentry.change?, List.map_cons, ih.2,
      outcomeAt, hentry.outcomeOf]
    exact ⟨ih.1, rfl⟩

variable {ω ω' : Type} (observe : ω → Outcome → ω) (observe' : ω' → Outcome → ω')

/-- Entries that are processed a second time are at rest. -/
theorem process_again (root : Path) {entries : List Entry} {session : Session} (seen : ω)
    (seen' : ω') (hwrites : cleaner.dryRun = false)
    (hsettles : ∀ turn ∈ cleaner.turns session.tree entries,
      ∀ text ∈ cleaner.textOf? turn.tree turn.entry, Strip.Settles cleaner.strategy text) :
    let first := cleaner.process observe root entries session seen
    let second := cleaner.process observe' root entries first.session seen'
    second.session.tree = first.session.tree ∧
      second.summary = { first.summary with
        modified := 0
        removed := 0
        outcomes := first.summary.outcomes.map Outcome.again } := by
  obtain ⟨htree, houtcomes⟩ := turns_of_atRest (atRest_turns root hwrites hsettles)
  simp only [process_eq_turns, houtcomes]
  exact ⟨htree, Summary.withAll_map_again ..⟩

/-- Where a run that is no dry run only reads texts that a second strip leaves as the first one has
made them, a second run succeeds, leaves the tree as it is, and reports the outcomes of the first
one in their order, with unchanged in place of cleaned; so nothing is modified or removed, and all
other totals are the same. -/
theorem run_again (cleaner : Cleaner) (root : Path) (session : Session) (seen : ω) (seen' : ω')
    (hwrites : cleaner.dryRun = false)
    (hsettles : ∀ turn ∈ cleaner.turns session.tree (entriesBelow session.tree.layout root),
      ∀ text ∈ cleaner.textOf? turn.tree turn.entry, Strip.Settles cleaner.strategy text)
    {first : Progress ω} (hfirst : cleaner.run observe root session seen = .ok first) :
    ∃ second, cleaner.run observe' root first.session seen' = .ok second ∧
      second.session.tree = first.session.tree ∧
      second.summary = { first.summary with
        modified := 0
        removed := 0
        outcomes := first.summary.outcomes.map Outcome.again } := by
  rw [run_eq_map_discover] at hfirst
  cases hdiscover : discover session.tree.layout root with
  | error error => rw [hdiscover] at hfirst; cases hfirst
  | ok entries =>
    rw [hdiscover] at hfirst
    obtain rfl := Except.ok.inj hfirst
    obtain ⟨-, rfl⟩ := discover_eq_ok_iff.mp hdiscover
    refine ⟨_, ?_, process_again observe observe' root seen seen' hwrites hsettles⟩
    dsimp only
    rw [run_eq_map_discover, layout_process, hdiscover]
    rfl

/-- A file and a link to it, an excluded link to it, and files that cannot be read, written or
decoded. -/
def repeatedTree : Tree := ⟨[], [
  ([], .directory .full),
  ([ascii "r"], .directory .full),
  ([ascii "r", ascii "a.dart"], .link ⟨ascii "b.dart"⟩),
  ([ascii "r", ascii "app_logger.dart"], .link ⟨ascii "b.dart"⟩),
  ([ascii "r", ascii "b.dart"], .file .full (ascii "print(1);")),
  ([ascii "r", ascii "c.dart"], .file (.ofBits 0o200) (ascii "print(1);")),
  ([ascii "r", ascii "d.dart"], .file (.ofBits 0o400) (ascii "print(1);")),
  ([ascii "r", ascii "e.dart"], .file .full [0xFF])]⟩

/-- Through the link the file is cleaned in the first run, and by its own path it is unchanged then
already; in the second run it is unchanged both times, and what failed fails again. -/
theorem run_again_repeated :
    ∃ first second, standard.run (fun _ _ => ()) ⟨ascii "r"⟩ (.start repeatedTree) () = .ok first ∧
      standard.run (fun _ _ => ()) ⟨ascii "r"⟩ first.session () = .ok second ∧
      first.summary.outcomes.map (·.status) =
        [.cleaned, .excluded, .unchanged, .failed, .failed, .failed] ∧
      second.summary.outcomes.map (·.status) =
        [.unchanged, .excluded, .unchanged, .failed, .failed, .failed] ∧
      second.session.tree = first.session.tree := by
  have hsettles : ∀ turn ∈ standard.turns repeatedTree
      (entriesBelow repeatedTree.layout ⟨ascii "r"⟩),
      ∀ text ∈ standard.textOf? turn.tree turn.entry, Strip.Settles .scan text := by
    decide +kernel
  have hfirst : standard.run (fun _ _ => ()) ⟨ascii "r"⟩ (.start repeatedTree) () =
      .ok (standard.sweep (fun _ _ => ()) ⟨ascii "r"⟩ (.start repeatedTree) ()) := by rfl
  obtain ⟨second, hsecond, htree, hsummary⟩ := run_again (fun _ _ => ()) (fun _ _ => ()) standard
    ⟨ascii "r"⟩ (.start repeatedTree) () () rfl hsettles hfirst
  refine ⟨_, second, hfirst, hsecond, by decide +kernel, ?_, htree⟩
  rw [hsummary]
  decide +kernel

end Cleaner

end DebugSweep
