import DebugSweep.Proofs.Strip.Reduction
import DebugSweep.Proofs.Sweep.Walking

/-!
# What becomes of a file over many runs

Whether a file is left alone is decided for each path by which the walk comes to it, and a walk that
follows links can come to one file by several paths. `runAll_keeps_file_iff` says when a file is the
same after a sequence of runs as before: each of the runs has to spare it under each path that leads
to it. The logging utility is excluded under its own name only, so a link of another name to it
exposes it (`excluded_file_changes`).

A change is never undone, since every change takes terminators away. So nothing has to be known
about the runs in between.
-/

namespace DebugSweep

open Strip (Reduced)

/-- A cleaner and the root it sweeps. -/
structure Job where
  cleaner : Cleaner
  root : Path

variable {ω : Type} (observe : ω → Outcome → ω) (seen : ω)

/-- The session after one more run; a root that cannot be walked changes nothing. -/
def Job.run (session : Session) (job : Job) : Session :=
  match job.cleaner.run observe job.root session seen with
  | .ok progress => progress.session
  | .error _ => session

/-- The session after runs one after the other. -/
def runAll (jobs : List Job) (session : Session) : Session :=
  jobs.foldl (Job.run observe seen) session

/-- A run of the root comes to the file at the address by this path. -/
def Reaches (layout : Layout) (root path : Path) (address : Address) : Prop :=
  ∃ entries, discover layout root = .ok entries ∧ .ok path ∈ entries ∧
    layout.address true path = .ok address

/-- Where every step leaves a content as it is or takes terminators away, it is the same in the end
if and only if every step spares it. -/
theorem exists_foldl_iff {σ α : Type} {step : σ → α → σ} {Holds : σ → Bytes → Prop}
    {Spared : α → Bytes → Prop}
    (hstep : ∀ state content item, Holds state content →
      ∃ after, Holds (step state item) after ∧ Reduced content after ∧
        (after = content ↔ Spared item content))
    (items : List α) {state : σ} {content : Bytes} (h : Holds state content) :
    ∃ after, Holds (items.foldl step state) after ∧ Reduced content after ∧
      (after = content ↔ ∀ item ∈ items, Spared item content) := by
  induction items generalizing state content with
  | nil => exact ⟨content, h, .refl content, by simp⟩
  | cons item items ih =>
    obtain ⟨next, hnext, hreduced, hspared⟩ := hstep state content item h
    obtain ⟨after, hafter, hlater, hrest⟩ := ih hnext
    refine ⟨after, hafter, hreduced.trans hlater, ?_⟩
    rw [List.forall_mem_cons]
    constructor
    · rintro rfl
      have hsame := hreduced.antisymm hlater
      rw [hsame] at hrest hspared
      exact ⟨hspared.mp rfl, hrest.mp rfl⟩
    · rintro ⟨hfirst, hothers⟩
      have hsame := hspared.mpr hfirst
      subst hsame
      exact hrest.mpr hothers

section File

variable {layout : Layout} {address : Address} {mode : Mode}

/-- In a session with this layout there is a file with this content. -/
def HasFile (layout : Layout) (address : Address) (mode : Mode) (session : Session)
    (content : Bytes) : Prop :=
  session.tree.layout = layout ∧ session.tree.nodeAt? address = some (.file mode content)

/-- Dealing with one entry leaves a file as it is if and only if it spares the file or does not come
to it. -/
theorem exists_handle (cleaner : Cleaner) (root : Path) {session : Session} {content : Bytes}
    (h : HasFile layout address mode session content) (entry : Entry) :
    ∃ after, HasFile layout address mode (cleaner.handle root session entry).1 after ∧
      Reduced content after ∧
      (after = content ↔ ∀ path, entry = .ok path → layout.address true path = .ok address →
        cleaner.Spares path mode content) := by
  obtain ⟨rfl, hfile⟩ := h
  rcases entry with error | path
  · exact ⟨content, ⟨rfl, hfile⟩, .refl content, by simp⟩
  · have hlayout := cleaner.layout_clean session path
    by_cases haddress : session.tree.layout.address true path = .ok address
    · by_cases hspares : cleaner.Spares path mode content
      · have htree := Cleaner.tree_clean_of_spares haddress hfile hspares
        refine ⟨content, ⟨hlayout, ?_⟩, .refl content, iff_of_true rfl ?_⟩
        · exact htree ▸ hfile
        · rintro _ ⟨⟩ _
          exact hspares
      · have htree := Cleaner.tree_clean_of_not_spares haddress hfile hspares
        refine ⟨_, ⟨hlayout, ?_⟩, Strip.reduced_strip cleaner.strategy content,
          iff_of_false ?_ ?_⟩
        · exact htree ▸ Tree.nodeAt?_setContent_self hfile _
        · intro htext
          exact hspares (.inr (.inr (.inr (.inr (.inr htext)))))
        · intro hall
          exact hspares (hall path rfl haddress)
    · have hnode := cleaner.nodeAt?_clean_of_ne haddress
      refine ⟨content, ⟨hlayout, ?_⟩, .refl content, iff_of_true rfl ?_⟩
      · exact hnode.trans hfile
      · rintro _ ⟨⟩ hcomes
        exact absurd hcomes haddress

/-- A run leaves a file as it is if and only if it spares it under every path by which it comes to
it. -/
theorem exists_run (job : Job) {session : Session} {content : Bytes}
    (h : HasFile layout address mode session content) :
    ∃ after, HasFile layout address mode (Job.run observe seen session job) after ∧
      Reduced content after ∧
      (after = content ↔ ∀ path, Reaches layout job.root path address →
        job.cleaner.Spares path mode content) := by
  obtain ⟨cleaner, root⟩ := job
  simp only [Job.run, Cleaner.run]
  cases herror : rootError? session.tree.layout root with
  | some error =>
    refine ⟨content, h, .refl content, iff_of_true rfl ?_⟩
    rintro path ⟨entries, hdiscover, -⟩
    rw [← h.1, discover, herror] at hdiscover
    cases hdiscover
  | none =>
    simp only
    rw [Cleaner.sweep_eq_process, Cleaner.process]
    have hstep (progress : Progress ω) (content : Bytes) (entry : Entry)
        (hfile : HasFile layout address mode progress.session content) :=
      exists_handle cleaner root hfile entry
    have hbegin : HasFile layout address mode (cleaner.begin root session seen).session content := h
    obtain ⟨after, hafter, hreduced, hspared⟩ := @exists_foldl_iff _ _ (cleaner.step observe root)
      (fun progress content => HasFile layout address mode progress.session content) _ hstep
      (entriesBelow session.tree.layout root) _ _ hbegin
    refine ⟨after, hafter, hreduced, hspared.trans ?_⟩
    rw [h.1] at herror ⊢
    constructor
    · rintro hall path ⟨entries, hdiscover, hmem, haddress⟩
      rw [discover, herror] at hdiscover
      cases hdiscover
      exact hall _ hmem path rfl haddress
    · rintro hall entry hmem path rfl haddress
      exact hall path ⟨_, by rw [discover, herror], hmem, haddress⟩

/-- A sequence of runs leaves a file as it is if and only if every run spares it under every path by
which it comes to it. -/
theorem runAll_keeps_file_iff (jobs : List Job) {session : Session} {content : Bytes}
    (hfile : session.tree.nodeAt? address = some (.file mode content)) :
    (runAll observe seen jobs session).tree.nodeAt? address = some (.file mode content) ↔
      ∀ job ∈ jobs, ∀ path, Reaches session.tree.layout job.root path address →
        job.cleaner.Spares path mode content := by
  have hbegin : HasFile session.tree.layout address mode session content := ⟨rfl, hfile⟩
  obtain ⟨after, ⟨-, hafter⟩, -, hspared⟩ := exists_foldl_iff
    (fun session content job h => exists_run observe seen job h) jobs hbegin
  rw [runAll, hafter, ← hspared, Option.some.injEq, Node.file.injEq, and_iff_right rfl]

end File

/-- A directory with the logging utility in it. -/
def loggerTree : Tree := ⟨[], [
  ([], .directory .full),
  ([ascii "r"], .directory .full),
  ([ascii "r", ascii "app_logger.dart"], .file .full (ascii "print(1);"))]⟩

/-- Under its own name the logging utility is spared by every run. -/
theorem runAll_keeps_logger :
    loggerTree.nodeAt? [ascii "r", ascii "app_logger.dart"] =
        some (.file .full (ascii "print(1);")) ∧
      (runAll (fun _ _ => ()) ()
          [⟨.standard, ⟨ascii "r"⟩⟩, ⟨⟨"logger", .legacy, false⟩, ⟨ascii "r"⟩⟩]
          (.start loggerTree)).tree.nodeAt? [ascii "r", ascii "app_logger.dart"] =
        some (.file .full (ascii "print(1);")) := by
  have hfile : (Session.start loggerTree).tree.nodeAt? [ascii "r", ascii "app_logger.dart"] =
      some (.file .full (ascii "print(1);")) := by rfl
  refine ⟨hfile, (runAll_keeps_file_iff _ _ _ hfile).mpr ?_⟩
  have hdiscover : discover loggerTree.layout ⟨ascii "r"⟩ =
      .ok [.ok ⟨ascii "r/app_logger.dart"⟩] := by rfl
  intro job hjob path hreaches
  have hjob' : job.root = ⟨ascii "r"⟩ ∧
      job.cleaner.excludes ⟨ascii "r/app_logger.dart"⟩ = true := by
    simp only [List.mem_cons, List.not_mem_nil, or_false] at hjob
    rcases hjob with rfl | rfl
    · exact ⟨rfl, rfl⟩
    · exact ⟨rfl, rfl⟩
  obtain ⟨entries, hentries, hmem, -⟩ := hreaches
  rw [hjob'.1] at hentries
  cases hdiscover.symm.trans hentries
  simp only [List.mem_singleton, Except.ok.injEq] at hmem
  subst hmem
  exact .inl hjob'.2

/-- A directory with the logging utility and a link of another name to it. -/
def aliasTree : Tree := ⟨[], [
  ([], .directory .full),
  ([ascii "r"], .directory .full),
  ([ascii "r", ascii "a.dart"], .link ⟨ascii "app_logger.dart"⟩),
  ([ascii "r", ascii "app_logger.dart"], .file .full (ascii "print(1);"))]⟩

/-- A run rewrites the logging utility through a link of another name to it. -/
theorem excluded_file_changes :
    Cleaner.standard.excludes ((⟨ascii "r"⟩ : Path).join (ascii "app_logger.dart")) = true ∧
      aliasTree.nodeAt? [ascii "r", ascii "app_logger.dart"] =
        some (.file .full (ascii "print(1);")) ∧
      (runAll (fun _ _ => ()) () [⟨.standard, ⟨ascii "r"⟩⟩] (.start aliasTree)).tree.nodeAt?
          [ascii "r", ascii "app_logger.dart"] =
        some (.file .full (ascii "// Debug logging removed")) :=
  ⟨rfl, rfl, rfl⟩

end DebugSweep
