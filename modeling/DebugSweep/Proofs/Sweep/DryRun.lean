import DebugSweep.Proofs.Sweep.Independence

/-!
# Dry runs

A dry run goes through all a run goes through but the writing, so it leaves the tree as it is. It
foretells the run of the same cleaner where nothing but the writing can tell the two apart: a file
that cannot be written fails in the run only, and a file that is come to twice has been cleaned when
the run comes to it again. Where neither happens both have the same outcomes and the same totals.
-/

namespace DebugSweep

namespace Cleaner

/-- The cleaner, in a dry run. -/
def dry (cleaner : Cleaner) : Cleaner := { cleaner with dryRun := true }

/-- The cleaner, in a run that writes. -/
def wet (cleaner : Cleaner) : Cleaner := { cleaner with dryRun := false }

/-- Every file that an entry leads to, that is not excluded and that stripping would change can be
written. -/
def CanWrite (cleaner : Cleaner) (tree : Tree) (entries : List Entry) : Prop :=
  ∀ path address mode content, .ok path ∈ entries → cleaner.excludes path = false →
    tree.layout.address true path = .ok address →
    tree.nodeAt? address = some (.file mode content) → mode.readable = true →
    Utf8.isValid content = true → (Strip.strip cleaner.strategy content).text ≠ content →
      mode.writable = true

/-- A dry run changes no file. -/
theorem change?_dry (cleaner : Cleaner) (tree : Tree) (entry : Entry) :
    cleaner.dry.change? tree entry = none :=
  change?_eq_none_of_spares fun _ _ _ _ => .inr (.inl rfl)

variable {ω : Type} (observe : ω → Outcome → ω)

/-- A dry run leaves the tree as it is. -/
theorem tree_process_dry (cleaner : Cleaner) (root : Path) (entries : List Entry)
    (session : Session) (seen : ω) :
    (cleaner.dry.process observe root entries session seen).session.tree = session.tree := by
  have hfold (progress : Progress ω) :
      (entries.foldl (cleaner.dry.step observe root) progress).session.tree =
        progress.session.tree := by
    induction entries generalizing progress with
    | nil => rfl
    | cons entry entries ih =>
      have hstep := cleaner.dry.tree_handle root progress.session entry
      rw [change?_dry] at hstep
      exact (ih _).trans hstep
  exact hfold _

/-- Where the file can be written, stripping it reports the same in a dry run. -/
theorem stripFile_dry {cleaner : Cleaner} {tree : Tree} {entries : List Entry}
    (hwrite : cleaner.CanWrite tree entries) {path : Path} (hentry : .ok path ∈ entries)
    (hexcludes : cleaner.excludes path = false) :
    (cleaner.dry.stripFile tree path).map Prod.snd =
      (cleaner.wet.stripFile tree path).map Prod.snd := by
  simp only [stripFile, dry, wet, Bool.false_eq_true, ↓reduceIte]
  cases hread : tree.read path with
  | error fault => rfl
  | ok content =>
    simp only
    split_ifs with hvalid htext
    · rfl
    · rfl
    · obtain ⟨address, mode, haddress, hfile, hreadable⟩ := Tree.exists_of_read hread
      have hwritable := hwrite path address mode content hentry hexcludes haddress hfile hreadable
        (by simpa using hvalid) htext
      rw [Tree.write_file haddress hfile, if_pos hwritable]
      rfl

/-- Where the files can be written, an entry has the same outcome in a dry run. -/
theorem outcomeOf_dry {cleaner : Cleaner} {tree : Tree} {entries : List Entry}
    (hwrite : cleaner.CanWrite tree entries) (root : Path) {entry : Entry}
    (hentry : entry ∈ entries) :
    cleaner.dry.outcomeOf root tree entry = cleaner.wet.outcomeOf root tree entry := by
  cases entry with
  | error error => rfl
  | ok path =>
    rw [outcomeOf_ok, outcomeOf_ok]
    have hdry : cleaner.dry.excludes path = cleaner.excludes path := rfl
    have hwet : cleaner.wet.excludes path = cleaner.excludes path := rfl
    rw [hdry, hwet]
    cases hexcludes : cleaner.excludes path with
    | true => rfl
    | false =>
      rw [stripFile_dry hwrite hentry hexcludes]

end Cleaner

variable {ω : Type} (observe : ω → Outcome → ω)

/-- A dry run leaves the tree as it is, whatever lies in it. Where the entries below the root lead
to different files, and those that stripping would change can be written, the summary of the dry run
is that of the run but for saying that it is dry; a root that cannot be walked is reported by both
alike. -/
theorem dryRun_foretells_run (cleaner : Cleaner) (root : Path) (session : Session) (seen : ω) :
    (∀ progress, cleaner.dry.run observe root session seen = .ok progress →
        progress.session.tree = session.tree) ∧
      ((∀ entries, discover session.tree.layout root = .ok entries →
          FilesApart session.tree.layout entries ∧ cleaner.CanWrite session.tree entries) →
        (cleaner.dry.run observe root session seen).map Progress.summary =
          (cleaner.wet.run observe root session seen).map fun progress =>
            { progress.summary with dryRun := true }) := by
  simp only [Cleaner.run, discover]
  cases rootError? session.tree.layout root with
  | some error =>
    refine ⟨fun progress h => ?_, fun _ => rfl⟩
    cases h
  | none =>
    simp only [Cleaner.sweep_eq_process, Except.ok.injEq, Except.map, forall_eq']
    refine ⟨cleaner.tree_process_dry observe root _ session seen, ?_⟩
    rintro ⟨happart, hwrite⟩
    obtain ⟨-, hdry⟩ := process_eq observe cleaner.dry root happart seen
    obtain ⟨-, hwet⟩ := process_eq observe cleaner.wet root happart seen
    have houtcomes := List.map_congr_left fun entry hentry =>
      Cleaner.outcomeOf_dry hwrite root hentry
    rw [hdry, hwet, houtcomes]
    rfl

/-- A directory with a link to a file outside of it, a logging utility that cannot be written, a
file that cannot be read and a link to itself. -/
def guardedTree : Tree := ⟨[], [
  ([], .directory .full),
  ([ascii "c"], .file .full (ascii "print(1);")),
  ([ascii "r"], .directory .full),
  ([ascii "r", ascii "a.dart"], .link ⟨ascii "../c"⟩),
  ([ascii "r", ascii "app_logger.dart"], .file (.ofBits 0o400) (ascii "print(2);")),
  ([ascii "r", ascii "b.dart"], .file (.ofBits 0o200) (ascii "print(3);")),
  ([ascii "r", ascii "d.dart"], .link ⟨ascii "d.dart"⟩)]⟩

/-- The file outside is to be cleaned, and the others are spared or fail. -/
theorem dryRun_foretells_guarded :
    (Cleaner.standard.dry.run (fun _ _ => ()) ⟨ascii "r"⟩ (.start guardedTree) ()).map
        Progress.summary =
      (Cleaner.standard.wet.run (fun _ _ => ()) ⟨ascii "r"⟩ (.start guardedTree) ()).map
        fun progress => { progress.summary with dryRun := true } := by
  have hdiscover : discover guardedTree.layout ⟨ascii "r"⟩ =
      .ok [.ok ⟨ascii "r/a.dart"⟩, .ok ⟨ascii "r/app_logger.dart"⟩, .ok ⟨ascii "r/b.dart"⟩,
        .error (.walk (.entry ⟨ascii "r/d.dart"⟩ (.system .tooManyLinks)))] := by rfl
  refine (dryRun_foretells_run (fun _ _ => ()) Cleaner.standard ⟨ascii "r"⟩ (.start guardedTree)
    ()).2 fun entries hentries => ?_
  cases hdiscover.symm.trans hentries
  refine ⟨by decide, ?_⟩
  intro path address mode content hentry hexcludes haddress hfile hreadable _ _
  simp only [List.mem_cons, Except.ok.injEq, reduceCtorEq, List.not_mem_nil, or_false] at hentry
  obtain rfl | rfl | rfl := hentry
  · cases haddress
    cases hfile
    rfl
  · cases hexcludes
  · cases haddress
    cases hfile
    cases hreadable

end DebugSweep
