import Mathlib.Data.List.FinRange
import Mathlib.Data.List.Pairwise
import DebugSweep.Proofs.Sweep.Totals
import DebugSweep.Proofs.Sweep.Walking

/-!
# Files are cleaned independently

Dealing with one entry looks at one file and changes at most that one, so where the entries of a
sweep lead to different files each of them is dealt with as if it were the only one. The tree
afterwards is the original one with all changes made in it, each of which is known from the original
tree (`Cleaner.change?`), and so is every outcome (`Cleaner.outcomeOf`). The order of the entries
therefore does not matter.
-/

namespace DebugSweep

/-- The address of the file that a path leads to, links followed. -/
def Layout.file? (layout : Layout) (path : Path) : Option Address :=
  match layout.address true path with
  | .error _ => none
  | .ok address =>
    match layout.shapeAt? address with
    | some (.file _) => some address
    | _ => none

/-- The address of the file that an entry leads to. -/
def Layout.fileOf? (layout : Layout) : Entry → Option Address
  | .ok path => layout.file? path
  | .error _ => none

/-- An entry that leads to a file has a path that leads there. -/
theorem Layout.exists_of_fileOf? {layout : Layout} {entry : Entry} {address : Address}
    (h : layout.fileOf? entry = some address) :
    ∃ path, entry = .ok path ∧ layout.address true path = .ok address := by
  cases entry with
  | error error => cases h
  | ok path =>
    rw [fileOf?, file?] at h
    split at h
    · cases h
    · rename_i hplace
      split at h
      · cases h
        exact ⟨path, rfl, hplace⟩
      · cases h

/-- No two of the entries lead to the same file. -/
def FilesApart (layout : Layout) (entries : List Entry) : Prop :=
  entries.Pairwise fun first second =>
    ∀ address, layout.fileOf? first = some address → layout.fileOf? second ≠ some address

/-- The files of the entries have to differ. -/
theorem filesApart_iff_nodup {layout : Layout} {entries : List Entry} :
    FilesApart layout entries ↔ (entries.filterMap layout.fileOf?).Nodup := by
  rw [FilesApart, List.Nodup, List.pairwise_filterMap]
  refine List.Pairwise.iff fun {first second} => ?_
  constructor
  · rintro h address haddress _ haddress' rfl
    exact h address haddress haddress'
  · intro h address haddress haddress'
    exact h address haddress address haddress' rfl

instance (layout : Layout) (entries : List Entry) : Decidable (FilesApart layout entries) :=
  decidable_of_iff _ filesApart_iff_nodup.symm

namespace Tree

/-- The tree with new contents in several files, one after the other. -/
def setContents (tree : Tree) (changes : List (Address × Bytes)) : Tree :=
  changes.foldl (fun tree change => tree.setContent change.1 change.2) tree

theorem setContents_append (tree : Tree) (first second : List (Address × Bytes)) :
    tree.setContents (first ++ second) = (tree.setContents first).setContents second :=
  List.foldl_append

theorem layout_setContents (tree : Tree) (changes : List (Address × Bytes)) :
    (tree.setContents changes).layout = tree.layout := by
  induction changes generalizing tree with
  | nil => rfl
  | cons change changes ih => exact (ih _).trans (layout_setContent ..)

/-- The nodes of files whose content is not changed stay. -/
theorem nodeAt?_setContents {address : Address} {changes : List (Address × Bytes)}
    (h : ∀ change ∈ changes, change.1 ≠ address) (tree : Tree) :
    (tree.setContents changes).nodeAt? address = tree.nodeAt? address := by
  induction changes generalizing tree with
  | nil => rfl
  | cons change changes ih =>
    rw [List.forall_mem_cons] at h
    exact (ih h.2 _).trans (nodeAt?_setContent_of_ne h.1.symm tree change.2)

/-- Contents of different files are changed in either order. -/
theorem setContent_comm {first second : Address} (h : first ≠ second) (tree : Tree)
    (content content' : Bytes) :
    (tree.setContent first content).setContent second content' =
      (tree.setContent second content').setContent first content := by
  simp only [setContent, modify, List.map_map, Tree.mk.injEq, true_and]
  refine List.map_congr_left fun entry _ => ?_
  simp only [Function.comp_apply]
  by_cases hfirst : entry.1 = first
  · have hsecond : entry.1 ≠ second := fun heq => h (hfirst.symm.trans heq)
    simp [hfirst, h]
  · by_cases hsecond : entry.1 = second
    · simp [hsecond, h.symm]
    · simp [hfirst, hsecond]

/-- Contents of different files are changed in any order. -/
theorem setContents_perm {changes others : List (Address × Bytes)} (hperm : others.Perm changes)
    (happart : changes.Pairwise fun first second => first.1 ≠ second.1) (tree : Tree) :
    tree.setContents others = tree.setContents changes := by
  have hsymm : Std.Symm fun first second : Address × Bytes => first.1 ≠ second.1 :=
    ⟨fun _ _ h => h.symm⟩
  refine hperm.foldl_eq' (fun first hfirst second hsecond tree => ?_) tree
  by_cases heq : first = second
  · rw [heq]
  · have hne := happart.forall (hperm.mem_iff.mp hfirst) (hperm.mem_iff.mp hsecond) heq
    exact setContent_comm hne tree first.2 second.2

/-- A file whose content is changed once has the new one. -/
theorem nodeAt?_setContents_of_mem {changes : List (Address × Bytes)}
    (happart : changes.Pairwise fun first second => first.1 ≠ second.1) {address : Address}
    {text content : Bytes} {mode : Mode} (hmem : (address, text) ∈ changes) {tree : Tree}
    (hfile : tree.nodeAt? address = some (.file mode content)) :
    (tree.setContents changes).nodeAt? address = some (.file mode text) := by
  obtain ⟨before, after, rfl⟩ := List.append_of_mem hmem
  obtain ⟨-, hlater, hbefore⟩ := List.pairwise_append.mp happart
  have hafter : ∀ change ∈ after, change.1 ≠ address :=
    fun change hchange => (List.rel_of_pairwise_cons hlater hchange).symm
  have hkept := nodeAt?_setContents
    (fun change hchange => hbefore change hchange _ List.mem_cons_self) tree
  rw [setContents_append]
  exact (nodeAt?_setContents hafter _).trans (nodeAt?_setContent_self (hkept.trans hfile) text)

/-- A layout knows every node but the contents of files. -/
theorem nodeAt?_congr {tree tree' : Tree} (hlayout : tree'.layout = tree.layout)
    {address : Address} (h : ∀ mode, tree.layout.shapeAt? address ≠ some (.file mode)) :
    tree'.nodeAt? address = tree.nodeAt? address := by
  have hshape := tree'.shapeAt?_layout address
  rw [hlayout, tree.shapeAt?_layout] at hshape
  rw [tree.shapeAt?_layout] at h
  cases hnode : tree.nodeAt? address with
  | none =>
    rw [hnode, Option.map_none, eq_comm, Option.map_eq_none_iff] at hshape
    exact hshape
  | some node =>
    rw [hnode, Option.map_some, eq_comm, Option.map_eq_some_iff] at hshape
    obtain ⟨node', hnode', hsame⟩ := hshape
    rw [hnode']
    cases node with
    | file mode content => exact absurd (by rw [hnode]; rfl) (h mode)
    | directory mode => cases node' <;> simp_all [Node.shape]
    | link target => cases node' <;> simp_all [Node.shape]

end Tree

namespace Cleaner

instance (cleaner : Cleaner) (path : Path) (mode : Mode) (content : Bytes) :
    Decidable (cleaner.Spares path mode content) :=
  inferInstanceAs (Decidable (_ ∨ _))

/-- The file that dealing with an entry changes, with its new content. -/
def change? (cleaner : Cleaner) (tree : Tree) : Entry → Option (Address × Bytes)
  | .error _ => none
  | .ok path =>
    match tree.layout.address true path with
    | .error _ => none
    | .ok address =>
      match tree.nodeAt? address with
      | some (.file mode content) =>
        if cleaner.Spares path mode content then none
        else some (address, (Strip.strip cleaner.strategy content).text)
      | _ => none

/-- The outcome of an entry that is the first of a sweep. -/
def outcomeOf (cleaner : Cleaner) (root : Path) (tree : Tree) (entry : Entry) : Outcome :=
  (cleaner.handle root (.start tree) entry).2

/-- An entry changes the file that its path leads to if the cleaner does not spare it. -/
theorem change?_eq_some_iff {cleaner : Cleaner} {tree : Tree} {entry : Entry} {address : Address}
    {text : Bytes} :
    cleaner.change? tree entry = some (address, text) ↔
      ∃ path mode content, entry = .ok path ∧ tree.layout.address true path = .ok address ∧
        tree.nodeAt? address = some (.file mode content) ∧ ¬cleaner.Spares path mode content ∧
        text = (Strip.strip cleaner.strategy content).text := by
  constructor
  · intro h
    cases entry with
    | error error => cases h
    | ok path =>
      simp only [change?] at h
      split at h
      · cases h
      · rename_i hplace
        split at h
        · rename_i hfile
          split_ifs at h with hspares
          cases h
          exact ⟨path, _, _, rfl, hplace, hfile, hspares, rfl⟩
        · cases h
  · rintro ⟨path, mode, content, rfl, hplace, hfile, hspares, rfl⟩
    simp only [change?, hplace, hfile, if_neg hspares]

/-- An entry whose file would be spared, whatever it is, changes nothing. -/
theorem change?_eq_none_of_spares {cleaner : Cleaner} {tree : Tree} {entry : Entry}
    (h : ∀ path mode content, entry = .ok path → cleaner.Spares path mode content) :
    cleaner.change? tree entry = none := by
  rw [Option.eq_none_iff_forall_ne_some]
  rintro ⟨address, text⟩ hchange
  obtain ⟨path, mode, content, hpath, -, -, hspares, -⟩ := change?_eq_some_iff.mp hchange
  exact hspares (h path mode content hpath)

/-- A file that is not changed is spared. -/
theorem spares_of_change?_none {cleaner : Cleaner} {tree : Tree} {path : Path} {address : Address}
    {mode : Mode} {content : Bytes} (hplace : tree.layout.address true path = .ok address)
    (hfile : tree.nodeAt? address = some (.file mode content))
    (h : cleaner.change? tree (.ok path) = none) : cleaner.Spares path mode content := by
  by_contra hspares
  have hchange := change?_eq_some_iff.mpr ⟨path, mode, content, rfl, hplace, hfile, hspares, rfl⟩
  cases h.symm.trans hchange

/-- What is changed is the file that the entry leads to. -/
theorem fileOf?_of_change? {cleaner : Cleaner} {tree : Tree} {entry : Entry}
    {change : Address × Bytes} (h : cleaner.change? tree entry = some change) :
    tree.layout.fileOf? entry = some change.1 := by
  obtain ⟨address, text⟩ := change
  obtain ⟨path, mode, content, rfl, hplace, hfile, -, -⟩ := change?_eq_some_iff.mp h
  simp only [Layout.fileOf?, Layout.file?, hplace, tree.shapeAt?_layout, hfile, Option.map_some,
    Node.shape]

/-- Where there is no file to be read nothing is changed. -/
theorem tree_clean_of_read_error {cleaner : Cleaner} {session : Session} {path : Path}
    {fault : Fault} (h : session.tree.read path = .error fault) :
    (cleaner.clean session path).1.tree = session.tree := by
  simp only [clean, stripFile, h]
  split <;> rfl

/-- Dealing with an entry makes its change. -/
theorem tree_handle (cleaner : Cleaner) (root : Path) (session : Session) (entry : Entry) :
    (cleaner.handle root session entry).1.tree =
      session.tree.setContents (cleaner.change? session.tree entry).toList := by
  cases entry with
  | error error => rfl
  | ok path =>
    simp only [handle, change?]
    split
    · rename_i fault hplace
      exact tree_clean_of_read_error (by simp only [Tree.read, hplace]; rfl)
    · rename_i address hplace
      split
      · rename_i mode content hfile
        split_ifs with hspares
        · exact tree_clean_of_spares hplace hfile hspares
        · exact tree_clean_of_not_spares hplace hfile hspares
      · rename_i hnone
        have hread : ∃ fault, session.tree.read path = .error fault := by
          simp only [Tree.read, bind, Except.bind, hplace]
          split
          · rename_i hfile
            exact absurd hfile (hnone _ _)
          · exact ⟨_, rfl⟩
          · exact ⟨_, rfl⟩
        obtain ⟨fault, hfault⟩ := hread
        exact tree_clean_of_read_error hfault

/-- Two trees of one layout with the same file where an entry leads. -/
structure Alike (entry : Entry) (tree' tree : Tree) : Prop where
  layout : tree'.layout = tree.layout
  file : ∀ address, tree.layout.fileOf? entry = some address →
    tree'.nodeAt? address = tree.nodeAt? address

/-- In such trees the same node lies where the path of the entry leads. -/
theorem Alike.nodeAt? {path : Path} {tree' tree : Tree} (h : Alike (.ok path) tree' tree)
    {address : Address} (hplace : tree.layout.address true path = .ok address) :
    tree'.nodeAt? address = tree.nodeAt? address := by
  by_cases hfile : ∃ mode, tree.layout.shapeAt? address = some (.file mode)
  · obtain ⟨mode, hmode⟩ := hfile
    exact h.file address (by simp only [Layout.fileOf?, Layout.file?, hplace, hmode])
  · exact Tree.nodeAt?_congr h.layout fun mode hmode => hfile ⟨mode, hmode⟩

/-- In such trees an entry changes the same. -/
theorem Alike.change?_eq {entry : Entry} {tree' tree : Tree} (h : Alike entry tree' tree)
    (cleaner : Cleaner) : cleaner.change? tree' entry = cleaner.change? tree entry := by
  cases entry with
  | error error => rfl
  | ok path =>
    simp only [change?, h.layout]
    cases hplace : tree.layout.address true path with
    | error fault => rfl
    | ok address => simp only [h.nodeAt? hplace]

/-- In such trees a path is read in the same way. -/
theorem Alike.read_eq {path : Path} {tree' tree : Tree} (h : Alike (.ok path) tree' tree) :
    tree'.read path = tree.read path := by
  simp only [Tree.read, h.layout]
  cases hplace : tree.layout.address true path with
  | error fault => rfl
  | ok address => simp only [bind, Except.bind, h.nodeAt? hplace]

/-- In such trees writing to a path fails in the same way. -/
theorem Alike.write_eq {path : Path} {tree' tree : Tree} (h : Alike (.ok path) tree' tree)
    (content : Bytes) :
    (tree'.write path content).map (fun _ => ()) = (tree.write path content).map fun _ => () := by
  simp only [Tree.write, h.layout]
  cases hplace : tree.layout.address true path with
  | error fault => rfl
  | ok address =>
    simp only [bind, Except.bind, h.nodeAt? hplace]
    split
    · split <;> rfl
    · rfl
    · rfl

/-- In such trees the same number of statements is found in a file, or the same error. -/
theorem Alike.stripFile_eq {path : Path} {tree' tree : Tree} (h : Alike (.ok path) tree' tree)
    (cleaner : Cleaner) :
    (cleaner.stripFile tree' path).map Prod.snd = (cleaner.stripFile tree path).map Prod.snd := by
  simp only [stripFile, h.read_eq]
  cases tree.read path with
  | error fault => rfl
  | ok content =>
    simp only
    split_ifs
    · rfl
    · rfl
    · rfl
    · have hwrite := h.write_eq (Strip.strip cleaner.strategy content).text
      revert hwrite
      cases tree'.write path (Strip.strip cleaner.strategy content).text <;>
        cases tree.write path (Strip.strip cleaner.strategy content).text <;>
        simp [Except.map]

/-- The outcome of a file is known from what stripping it has reported. -/
theorem outcome_clean (cleaner : Cleaner) (session : Session) (path : Path) :
    (cleaner.clean session path).2 =
      if cleaner.excludes path then .excluded path
      else match (cleaner.stripFile session.tree path).map Prod.snd with
        | .ok (some removed) => .cleaned path removed
        | .ok none => .unchanged path
        | .error error => .failed path error := by
  simp only [clean]
  split
  · rfl
  · rcases cleaner.stripFile session.tree path with error | ⟨tree, _ | removed⟩ <;> rfl

/-- The outcome of a path is known from what stripping its file reports. -/
theorem outcomeOf_ok (cleaner : Cleaner) (root : Path) (tree : Tree) (path : Path) :
    cleaner.outcomeOf root tree (.ok path) =
      if cleaner.excludes path then .excluded path
      else match (cleaner.stripFile tree path).map Prod.snd with
        | .ok (some removed) => .cleaned path removed
        | .ok none => .unchanged path
        | .error error => .failed path error :=
  cleaner.outcome_clean (.start tree) path

/-- In such trees an entry has the same outcome, whatever has been logged. -/
theorem Alike.outcome_eq {entry : Entry} {session : Session} {tree : Tree}
    (h : Alike entry session.tree tree) (cleaner : Cleaner) (root : Path) :
    (cleaner.handle root session entry).2 = cleaner.outcomeOf root tree entry := by
  cases entry with
  | error error => rfl
  | ok path =>
    rw [outcomeOf_ok, handle, outcome_clean, h.stripFile_eq]

variable {ω : Type} (observe : ω → Outcome → ω)

/-- Where the entries lead to different files, the changes and the outcomes of a sweep are known
from the tree at its beginning. -/
theorem foldl_step (cleaner : Cleaner) (root : Path) {tree : Tree} {entries : List Entry}
    (happart : FilesApart tree.layout entries) {progress : Progress ω}
    (halike : ∀ entry ∈ entries, Alike entry progress.session.tree tree) :
    (entries.foldl (cleaner.step observe root) progress).session.tree =
        progress.session.tree.setContents (entries.filterMap (cleaner.change? tree)) ∧
      (entries.foldl (cleaner.step observe root) progress).summary =
        progress.summary.withAll (entries.map (cleaner.outcomeOf root tree)) := by
  induction entries generalizing progress with
  | nil => exact ⟨rfl, (Summary.foldl_record [] _)⟩
  | cons entry entries ih =>
    obtain ⟨hfirst, hrest⟩ := List.forall_mem_cons.mp halike
    obtain ⟨hothers, happart⟩ := List.pairwise_cons.mp happart
    have htree : (cleaner.step observe root progress entry).session.tree =
        progress.session.tree.setContents (cleaner.change? tree entry).toList := by
      rw [← hfirst.change?_eq cleaner]
      exact tree_handle cleaner root progress.session entry
    have hsummary : (cleaner.step observe root progress entry).summary =
        progress.summary.record (cleaner.outcomeOf root tree entry) := by
      rw [← hfirst.outcome_eq cleaner root]
      rfl
    have halike' : ∀ other ∈ entries,
        Alike other (cleaner.step observe root progress entry).session.tree tree := by
      intro other hother
      rw [htree]
      refine ⟨(Tree.layout_setContents ..).trans (hrest other hother).layout, ?_⟩
      intro address haddress
      refine (Tree.nodeAt?_setContents ?_ _).trans ((hrest other hother).file address haddress)
      rintro change hchange rfl
      rw [Option.mem_toList] at hchange
      exact hothers other hother _ (fileOf?_of_change? hchange) haddress
    obtain ⟨htrees, hsummaries⟩ := ih happart halike'
    constructor
    · rw [List.foldl_cons, htrees, htree, ← Tree.setContents_append]
      congr 1
      cases hchange : cleaner.change? tree entry <;> simp [hchange]
    · rw [List.foldl_cons, hsummaries, hsummary, Summary.record_eq_withAll,
        ← Summary.withAll_append, List.map_cons, List.singleton_append]

/-- The changes of entries that lead to different files are in different files. -/
theorem pairwise_change? {cleaner : Cleaner} {tree : Tree} {entries : List Entry}
    (happart : FilesApart tree.layout entries) :
    (entries.filterMap (cleaner.change? tree)).Pairwise fun first second => first.1 ≠ second.1 := by
  rw [List.pairwise_filterMap]
  refine happart.imp fun happart change hchange change' hchange' heq => ?_
  exact happart _ (fileOf?_of_change? hchange) (heq ▸ fileOf?_of_change? hchange')

end Cleaner

/-- Whether entries lead to different files does not depend on their order. -/
theorem FilesApart.perm {layout : Layout} {entries others : List Entry}
    (h : FilesApart layout entries) (hperm : others.Perm entries) : FilesApart layout others := by
  refine (hperm.pairwise_iff fun hne address haddress haddress' => ?_).mpr h
  exact hne address haddress' haddress

variable {ω : Type} (observe : ω → Outcome → ω)

/-- What a sweep over entries that lead to different files does. -/
theorem process_eq (cleaner : Cleaner) (root : Path) {session : Session} {entries : List Entry}
    (happart : FilesApart session.tree.layout entries) (seen : ω) :
    (cleaner.process observe root entries session seen).session.tree =
        session.tree.setContents (entries.filterMap (cleaner.change? session.tree)) ∧
      (cleaner.process observe root entries session seen).summary =
        (Summary.empty root cleaner.strategy cleaner.dryRun).withAll
          (entries.map (cleaner.outcomeOf root session.tree)) :=
  cleaner.foldl_step observe root happart fun _ _ => ⟨rfl, fun _ _ => rfl⟩

/-- Files are cleaned independently, where the entries lead to different ones. A file that an entry
names and the cleaner does not spare holds its stripped text afterwards, every other node is as it
was, and each outcome is a function of its entry and the original tree. In another order the entries
leave the same tree and the same totals, and have the same outcomes in that order. -/
theorem process_independent (cleaner : Cleaner) (root : Path) {session : Session}
    {entries : List Entry} (happart : FilesApart session.tree.layout entries) (seen : ω) :
    let after := cleaner.process observe root entries session seen
    after.session.tree.layout = session.tree.layout ∧
      (∀ path address mode content, .ok path ∈ entries →
        session.tree.layout.address true path = .ok address →
        session.tree.nodeAt? address = some (.file mode content) →
        ¬cleaner.Spares path mode content →
          after.session.tree.nodeAt? address =
            some (.file mode (Strip.strip cleaner.strategy content).text)) ∧
      (∀ address,
        (∀ path mode content, .ok path ∈ entries →
          session.tree.layout.address true path = .ok address →
          session.tree.nodeAt? address = some (.file mode content) →
            cleaner.Spares path mode content) →
          after.session.tree.nodeAt? address = session.tree.nodeAt? address) ∧
      after.summary.outcomes = entries.map (cleaner.outcomeOf root session.tree) ∧
      ∀ order : Equiv.Perm (Fin entries.length),
        let permuted := cleaner.process observe root (List.ofFn fun i => entries[order i]) session
          seen
        permuted.session.tree = after.session.tree ∧
          permuted.summary = { after.summary with outcomes := permuted.summary.outcomes } ∧
          ∀ i : Fin entries.length, permuted.summary.outcomes[(i : ℕ)]? =
            after.summary.outcomes[(order i : ℕ)]? := by
  obtain ⟨htree, hsummary⟩ := process_eq observe cleaner root happart seen
  have hchanges : (entries.filterMap (cleaner.change? session.tree)).Pairwise
      fun first second => first.1 ≠ second.1 := Cleaner.pairwise_change? happart
  simp only [htree, hsummary]
  refine ⟨Tree.layout_setContents .., ?_, ?_, rfl, ?_⟩
  · intro path address mode content hentry hplace hfile hspares
    have hchange := Cleaner.change?_eq_some_iff.mpr
      ⟨path, mode, content, rfl, hplace, hfile, hspares, rfl⟩
    exact Tree.nodeAt?_setContents_of_mem hchanges
      (List.mem_filterMap.mpr ⟨_, hentry, hchange⟩) hfile
  · intro address hspared
    refine Tree.nodeAt?_setContents ?_ _
    rintro ⟨_, text⟩ hmem rfl
    obtain ⟨entry, hentry, hchange⟩ := List.mem_filterMap.mp hmem
    obtain ⟨path, mode, content, rfl, hplace, hfile, hspares, -⟩ :=
      Cleaner.change?_eq_some_iff.mp hchange
    exact hspares (hspared path mode content hentry hplace hfile)
  · intro order
    have hperm : (List.ofFn fun i => entries[order i]).Perm entries := by
      have hcomp := order.ofFn_comp_perm entries.get
      rwa [List.ofFn_get] at hcomp
    obtain ⟨htree', hsummary'⟩ := process_eq observe cleaner root (happart.perm hperm) seen
    simp only [htree', hsummary']
    refine ⟨Tree.setContents_perm (hperm.filterMap _) hchanges _,
      Summary.withAll_perm (hperm.map _) _, fun i => ?_⟩
    simp [Summary.withAll, Summary.empty]

/-- A directory with a file, a link of a source name to another, and the logging utility. -/
def linkedTree : Tree := ⟨[], [
  ([], .directory .full),
  ([ascii "a.dart"], .file .full (ascii "print(1);")),
  ([ascii "app_logger.dart"], .file .full (ascii "print(2);")),
  ([ascii "b.dart"], .link ⟨ascii "c"⟩),
  ([ascii "c"], .file .full (ascii "print(3);"))]⟩

/-- The files of the directory, a path to none and an error of the walk. -/
def linkedEntries : List Entry := [
  .ok ⟨ascii "a.dart"⟩,
  .error (.walk (.comparison (.system .permissionDenied))),
  .ok ⟨ascii "b.dart"⟩,
  .ok ⟨ascii "missing.dart"⟩,
  .ok ⟨ascii "app_logger.dart"⟩]

/-- A file that is written through a link, whatever fails before it and in either direction. -/
theorem process_independent_linked :
    FilesApart linkedTree.layout linkedEntries ∧
      (Cleaner.standard.process (fun _ _ => ()) ⟨ascii "."⟩
          (List.ofFn fun i => linkedEntries[Fin.revPerm i])
          (.start linkedTree) ()).session.tree.nodeAt? [ascii "c"] =
        some (.file .full (ascii "// Debug logging removed")) := by
  have happart : FilesApart (Session.start linkedTree).tree.layout linkedEntries := by
    decide
  obtain ⟨-, hchanged, -, -, hpermuted⟩ :=
    process_independent (fun _ _ => ()) Cleaner.standard ⟨ascii "."⟩ happart ()
  obtain ⟨htree, -, -⟩ := hpermuted Fin.revPerm
  refine ⟨happart, ?_⟩
  rw [htree]
  exact hchanged ⟨ascii "b.dart"⟩ [ascii "c"] .full (ascii "print(3);")
    (List.mem_of_getElem? (rfl : linkedEntries[2]? = _)) rfl rfl (by decide)

end DebugSweep
