import DebugSweep.Proofs.Sweep.Cleaning

/-!
# A sweep is a fold over the entries below its root

The walk looks at the layout of the state it has reached. Cleaning changes contents only, so every
visit finds the layout that the sweep began with, and what the walk visits can be listed beforehand
(`Walk.visits`). A sweep thus deals with the entries that `discover` reports, in their order.
-/

namespace DebugSweep

namespace Walk

/-- What is visited at an entry of a layout that does not change. -/
def entryVisits (layout : Layout) (enter : List Ancestor → Path → List (Except WalkError Path))
    (ancestors : List Ancestor) (path : Path) (shape : Shape) : List (Except WalkError Path) :=
  match shape with
  | .file _ => [.ok path]
  | .directory _ => enter ancestors path
  | .link _ =>
    match layout.entry true path with
    | .error fault => [.error (.entry path fault)]
    | .ok (_, .link _) => []
    | .ok (_, .file _) => [.ok path]
    | .ok (address, .directory mode) =>
      if !mode.readable then [.error (.comparison (.system .permissionDenied))]
      else
        match ancestors.find? (·.address = address) with
        | some ancestor => [.error (.loop path ancestor.path)]
        | none => enter ancestors path

/-- What is visited in a directory of a layout that does not change. -/
def directoryVisits (layout : Layout) :
    (depth : Nat) → List Ancestor → Path → List (Except WalkError Path)
  | 0, _, path => [.error (.entry path (.system .nameTooLong))]
  | depth + 1, ancestors, path =>
    match layout.listing path with
    | .error fault => [.error (.entry path fault)]
    | .ok (address, children) =>
      children.flatMap fun child =>
        entryVisits layout (directoryVisits layout depth) (⟨path, address⟩ :: ancestors)
          (path.join child.1) child.2

/-- What is visited at a root and below it in a layout that does not change. -/
def visits (layout : Layout) (root : Path) : List (Except WalkError Path) :=
  match layout.entry false root with
  | .error fault => [.error (.entry root fault)]
  | .ok (_, shape) => entryVisits layout (directoryVisits layout pathLimit) [] root shape

variable {σ : Type} {layoutOf : σ → Layout} {visit : σ → Except WalkError Path → σ}
  {layout : Layout}

/-- Visits that leave the layout alone leave it alone one after the other. -/
theorem layoutOf_foldl (hvisit : ∀ state found, layoutOf (visit state found) = layoutOf state)
    (found : List (Except WalkError Path)) (state : σ) :
    layoutOf (found.foldl visit state) = layoutOf state := by
  induction found generalizing state with
  | nil => rfl
  | cons first found ih => rw [List.foldl_cons, ih, hvisit]

/-- Visiting what lies at an entry is visiting the list of it. -/
theorem entry_eq_foldl {enter : List Ancestor → Path → σ → σ}
    {listed : List Ancestor → Path → List (Except WalkError Path)}
    (henter : ∀ ancestors path state, layoutOf state = layout →
      enter ancestors path state = (listed ancestors path).foldl visit state)
    (ancestors : List Ancestor) (path : Path) (shape : Shape) {state : σ}
    (hlayout : layoutOf state = layout) :
    entry layoutOf visit enter ancestors path shape state =
      (entryVisits layout listed ancestors path shape).foldl visit state := by
  cases shape with
  | file mode => rfl
  | directory mode => exact henter ancestors path state hlayout
  | link target =>
    simp only [entry, entryVisits, hlayout]
    cases layout.entry true path with
    | error fault => rfl
    | ok found =>
      obtain ⟨address, shape⟩ := found
      cases shape with
      | file mode => rfl
      | link target => rfl
      | directory mode =>
        simp only
        split
        · rfl
        · cases ancestors.find? fun ancestor => decide (ancestor.address = address) with
          | some ancestor => rfl
          | none => exact henter ancestors path state hlayout

/-- Visiting the content of a directory is visiting the list of it. -/
theorem directory_eq_foldl (hvisit : ∀ state found, layoutOf (visit state found) = layoutOf state)
    (depth : Nat) (ancestors : List Ancestor) (path : Path) {state : σ}
    (hlayout : layoutOf state = layout) :
    directory layoutOf visit depth ancestors path state =
      (directoryVisits layout depth ancestors path).foldl visit state := by
  induction depth generalizing ancestors path state with
  | zero => rfl
  | succ depth ih =>
    rw [directory, directoryVisits, hlayout]
    cases layout.listing path with
    | error fault => rfl
    | ok found =>
      obtain ⟨address, children⟩ := found
      simp only
      rw [List.foldl_flatMap]
      induction children generalizing state with
      | nil => rfl
      | cons child children ihChildren =>
        have hchild := entry_eq_foldl (fun ancestors path state h => ih ancestors path h)
          (⟨path, address⟩ :: ancestors) (path.join child.1) child.2 hlayout
        rw [List.foldl_cons, List.foldl_cons, hchild, ihChildren]
        rw [layoutOf_foldl hvisit, hlayout]

/-- A walk whose visits leave the layout alone visits what can be listed beforehand. -/
theorem fold_eq_foldl (hvisit : ∀ state found, layoutOf (visit state found) = layoutOf state)
    (root : Path) (state : σ) :
    fold layoutOf visit root state = (visits (layoutOf state) root).foldl visit state := by
  rw [fold, visits]
  cases (layoutOf state).entry false root with
  | error fault => rfl
  | ok found =>
    have hdirectory (ancestors : List Ancestor) (path : Path) (state' : σ)
        (h : layoutOf state' = layoutOf state) :=
      directory_eq_foldl hvisit pathLimit ancestors path h
    exact entry_eq_foldl hdirectory [] root found.2 rfl

end Walk

/-- The entries below a root are those of the visits. -/
theorem entriesBelow_eq (layout : Layout) (root : Path) :
    entriesBelow layout root = (Walk.visits layout root).filterMap entryOfVisit? := by
  have hfold (found : List (Except WalkError Path)) (entries : List Entry) :
      found.foldl (fun entries visit => (entryOfVisit? visit).toList ++ entries) entries =
        (found.filterMap entryOfVisit?).reverse ++ entries := by
    induction found generalizing entries with
    | nil => rfl
    | cons first found ih =>
      rw [List.foldl_cons, ih, List.filterMap_cons]
      cases entryOfVisit? first <;> simp
  have hwalk := @Walk.fold_eq_foldl _ (fun _ : List Entry => layout)
    (fun entries visit => (entryOfVisit? visit).toList ++ entries) (fun _ _ => rfl) root []
  rw [entriesBelow, hwalk, hfold, List.append_nil, List.reverse_reverse]

/-- Discovery succeeds where the root leads to a directory, and reports what lies below it. -/
theorem discover_eq_ok_iff {layout : Layout} {root : Path} {entries : List Entry} :
    discover layout root = .ok entries ↔
      layout.isDirectory root = true ∧ entries = entriesBelow layout root := by
  rw [discover, rootError?, Layout.contains, Layout.isDirectory]
  cases layout.entry true root with
  | error fault => simp [Except.isOk, Except.toBool]
  | ok found =>
    obtain ⟨address, shape⟩ := found
    cases shape <;> simp [Except.isOk, Except.toBool, eq_comm]

namespace Cleaner

/-- Dealing with an entry leaves the layout as it was. -/
theorem layout_handle (cleaner : Cleaner) (root : Path) (session : Session) (entry : Entry) :
    (cleaner.handle root session entry).1.tree.layout = session.tree.layout := by
  cases entry with
  | error error => rfl
  | ok path => exact cleaner.layout_clean session path

variable {ω : Type} (observe : ω → Outcome → ω)

/-- A sweep deals with the entries below its root, in their order. -/
theorem sweep_eq_process (cleaner : Cleaner) (root : Path) (session : Session) (seen : ω) :
    cleaner.sweep observe root session seen =
      cleaner.process observe root (entriesBelow session.tree.layout root) session seen := by
  rw [sweep, Walk.fold_eq_foldl, process, entriesBelow_eq, List.foldl_filterMap]
  · congr 1
    funext progress visit
    cases entryOfVisit? visit <;> rfl
  · intro progress visit
    cases entryOfVisit? visit with
    | none => rfl
    | some entry => exact layout_handle cleaner root progress.session entry

/-- A run deals with the entries that discovery reports, or reports the same error. -/
theorem run_eq_map_discover (cleaner : Cleaner) (root : Path) (session : Session) (seen : ω) :
    cleaner.run observe root session seen =
      (discover session.tree.layout root).map fun entries =>
        cleaner.process observe root entries session seen := by
  rw [run, discover]
  cases rootError? session.tree.layout root with
  | some error => rfl
  | none => exact congrArg Except.ok (cleaner.sweep_eq_process observe root session seen)

end Cleaner

end DebugSweep
