import DebugSweep.Proofs.Sweep.Independence

/-!
# The turns of a sweep

Each entry of a sweep has its turn, in the tree that the entries before it leave. What a sweep does
is known from its turns: the tree is changed by one turn after the other, and each turn adds one
outcome and its records (`process_eq_turns`). Nothing else enters, so what has been logged before
does not matter.
-/

namespace DebugSweep

/-- An entry with the tree in which it is dealt with. -/
structure Turn where
  tree : Tree
  entry : Entry

namespace Cleaner

/-- The tree after an entry has been dealt with. -/
def next (cleaner : Cleaner) (tree : Tree) (entry : Entry) : Tree :=
  tree.setContents (cleaner.change? tree entry).toList

/-- The turns of entries that are dealt with one after the other. -/
def turns (cleaner : Cleaner) : Tree → List Entry → List Turn
  | _, [] => []
  | tree, entry :: entries => ⟨tree, entry⟩ :: cleaner.turns (cleaner.next tree entry) entries

/-- The outcome of a turn. -/
def outcomeAt (cleaner : Cleaner) (root : Path) (turn : Turn) : Outcome :=
  cleaner.outcomeOf root turn.tree turn.entry

/-- What is logged in a turn. -/
def recordsAt (cleaner : Cleaner) (root : Path) (turn : Turn) : List LogRecord :=
  (cleaner.handle root (.start turn.tree) turn.entry).1.log

/-- An entry that changes nothing leaves the tree as it is. -/
theorem next_of_change?_none {cleaner : Cleaner} {tree : Tree} {entry : Entry}
    (h : cleaner.change? tree entry = none) : cleaner.next tree entry = tree := by
  rw [next, h]
  rfl

/-- Dealing with an entry leaves the layout as it was. -/
theorem layout_next (cleaner : Cleaner) (tree : Tree) (entry : Entry) :
    (cleaner.next tree entry).layout = tree.layout :=
  Tree.layout_setContents ..

/-- Turns leave the layout as it was. -/
theorem layout_foldl_next (cleaner : Cleaner) (tree : Tree) (entries : List Entry) :
    (entries.foldl cleaner.next tree).layout = tree.layout := by
  induction entries generalizing tree with
  | nil => rfl
  | cons entry entries ih => exact (ih _).trans (layout_next cleaner tree entry)

/-- Every entry has its turn. -/
theorem map_entry_turns (cleaner : Cleaner) (tree : Tree) (entries : List Entry) :
    (cleaner.turns tree entries).map Turn.entry = entries := by
  induction entries generalizing tree with
  | nil => rfl
  | cons entry entries ih => rw [turns, List.map_cons, ih]

/-- What is logged for an entry is added to what has been logged before. -/
theorem log_handle (cleaner : Cleaner) (root : Path) (session : Session) (entry : Entry) :
    (cleaner.handle root session entry).1.log =
      session.log ++ cleaner.recordsAt root ⟨session.tree, entry⟩ := by
  cases entry with
  | error error => rfl
  | ok path =>
    have hstart : (Session.start session.tree).tree = session.tree := rfl
    simp only [recordsAt, handle, clean, hstart]
    split
    · rfl
    · rcases cleaner.stripFile session.tree path with error | ⟨tree, _ | removed⟩ <;> rfl

/-- Dealing with an entry takes one turn. -/
theorem handle_eq (cleaner : Cleaner) (root : Path) (session : Session) (entry : Entry) :
    cleaner.handle root session entry =
      (⟨cleaner.next session.tree entry,
          session.log ++ cleaner.recordsAt root ⟨session.tree, entry⟩⟩,
        cleaner.outcomeAt root ⟨session.tree, entry⟩) := by
  have htree := cleaner.tree_handle root session entry
  have hlog := cleaner.log_handle root session entry
  have halike : Alike entry session.tree session.tree := ⟨rfl, fun _ _ => rfl⟩
  have houtcome := halike.outcome_eq cleaner root
  rw [Prod.ext_iff]
  refine ⟨?_, houtcome⟩
  rw [next, ← htree, ← hlog]

variable {ω : Type} (observe : ω → Outcome → ω)

/-- Dealing with entries takes their turns. -/
theorem foldl_step_eq_turns (cleaner : Cleaner) (root : Path) (entries : List Entry)
    (progress : Progress ω) :
    let turns := cleaner.turns progress.session.tree entries
    let outcomes := turns.map (cleaner.outcomeAt root)
    entries.foldl (cleaner.step observe root) progress =
      { session :=
          ⟨entries.foldl cleaner.next progress.session.tree,
            progress.session.log ++ turns.flatMap (cleaner.recordsAt root)⟩
        summary := progress.summary.withAll outcomes
        seen := outcomes.foldl observe progress.seen } := by
  induction entries generalizing progress with
  | nil =>
    have hsummary : progress.summary.withAll [] = progress.summary :=
      (Summary.foldl_record [] progress.summary).symm
    simp only [turns, List.map_nil, List.flatMap_nil, List.append_nil, List.foldl_nil, hsummary]
  | cons entry entries ih =>
    have hstep : cleaner.step observe root progress entry =
        { session :=
            ⟨cleaner.next progress.session.tree entry,
              progress.session.log ++ cleaner.recordsAt root ⟨progress.session.tree, entry⟩⟩
          summary := progress.summary.record
            (cleaner.outcomeAt root ⟨progress.session.tree, entry⟩)
          seen := observe progress.seen
            (cleaner.outcomeAt root ⟨progress.session.tree, entry⟩) } := by
      rw [step, handle_eq]
    simp only [List.foldl_cons, hstep, ih, turns, List.map_cons, List.flatMap_cons,
      List.append_assoc, Summary.record_eq_withAll, ← Summary.withAll_append,
      List.singleton_append]

/-- A sweep over entries takes their turns. -/
theorem process_eq_turns (cleaner : Cleaner) (root : Path) (entries : List Entry)
    (session : Session) (seen : ω) :
    let turns := cleaner.turns session.tree entries
    let outcomes := turns.map (cleaner.outcomeAt root)
    cleaner.process observe root entries session seen =
      { session :=
          ⟨entries.foldl cleaner.next session.tree,
            (cleaner.begin root session seen).session.log ++
              turns.flatMap (cleaner.recordsAt root)⟩
        summary := (Summary.empty root cleaner.strategy cleaner.dryRun).withAll outcomes
        seen := outcomes.foldl observe seen } :=
  cleaner.foldl_step_eq_turns observe root entries (cleaner.begin root session seen)

/-- A sweep over entries leaves the layout as it was. -/
theorem layout_process (cleaner : Cleaner) (root : Path) (entries : List Entry)
    (session : Session) (seen : ω) :
    (cleaner.process observe root entries session seen).session.tree.layout =
      session.tree.layout := by
  rw [process_eq_turns]
  exact layout_foldl_next ..

end Cleaner

end DebugSweep
