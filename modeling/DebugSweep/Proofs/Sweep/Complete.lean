import DebugSweep.Proofs.Sweep.Walking
import DebugSweep.Proofs.Tree.Listing

/-!
# The walk finds every source file once, in order

Below a root without links whose directories can all be listed, the walk visits the files that
`Layout.filesBelow` lists: every file below the root is among them, once, and they stand in the
order of the names that lead to them. Discovery reports those whose names end in the extension
(`discover_eq_ok_of_listable`).
-/

namespace DebugSweep

namespace Layout

/-- The names that lead from a directory to the files at and below one of its entries, where
`filesIn` lists those in a directory. -/
def filesAt (filesIn : Address → List (List Name)) (directory : Address) (child : Name × Shape) :
    List (List Name) :=
  match child.2 with
  | .file _ => [[child.1]]
  | .directory _ => (filesIn (directory ++ [child.1])).map (child.1 :: ·)
  | .link _ => []

/-- The names that lead from a directory to the files below it, at most `depth` directories deep,
in the order of the walk. -/
def filesBelow (layout : Layout) : (depth : Nat) → Address → List (List Name)
  | 0, _ => []
  | depth + 1, directory =>
    (layout.children directory).flatMap (filesAt (layout.filesBelow depth) directory)

/-- The directory at a root and every directory below it can be listed by its path. -/
def ListableBelow (layout : Layout) (root : Path) (place : Address) : Prop :=
  ∀ names mode, layout.shapeAt? (place ++ names) = some (.directory mode) →
    ∃ listed, layout.listing (root.joinAll names) = .ok listed

variable {layout : Layout}

/-- A file is reached by its name, and what is in a directory by its name and the names that lead
on. -/
theorem mem_filesAt_iff {filesIn : Address → List (List Name)} {directory : Address}
    {child : Name × Shape} {names : List Name} :
    names ∈ filesAt filesIn directory child ↔
      ∃ below, names = child.1 :: below ∧
        ((below = [] ∧ ∃ mode, child.2 = .file mode) ∨
          (below ∈ filesIn (directory ++ [child.1]) ∧ ∃ mode, child.2 = .directory mode)) := by
  obtain ⟨name, shape⟩ := child
  cases shape <;> simp [filesAt, eq_comm, and_comm]

namespace WellFormed

variable (h : layout.WellFormed)
include h

/-- The files below a directory are those whose addresses begin with it. -/
theorem mem_filesBelow_iff {depth : Nat} {directory : Address} {names : List Name} :
    names ∈ layout.filesBelow depth directory ↔
      names ≠ [] ∧ names.length ≤ depth ∧
        ∃ mode, layout.shapeAt? (directory ++ names) = some (.file mode) := by
  induction depth generalizing directory names with
  | zero =>
    simp only [filesBelow, List.not_mem_nil, false_iff]
    rintro ⟨hnames, hlength, -⟩
    exact hnames (List.length_eq_zero_iff.mp (Nat.le_zero.mp hlength))
  | succ depth ih =>
    simp only [filesBelow, List.mem_flatMap, h.mem_children_iff, mem_filesAt_iff, ih, Prod.exists]
    constructor
    · rintro ⟨name, shape, hshape, below, rfl, ⟨rfl, mode, rfl⟩ | ⟨⟨-, hlength, hfile⟩, -⟩⟩
      · exact ⟨List.cons_ne_nil _ _, by simp, mode, hshape⟩
      · rw [List.append_assoc, List.singleton_append] at hfile
        exact ⟨List.cons_ne_nil _ _, by simpa using hlength, hfile⟩
    · rintro ⟨hnames, hlength, mode, hfile⟩
      obtain ⟨name, below, rfl⟩ := List.exists_cons_of_ne_nil hnames
      by_cases hbelow : below = []
      · exact ⟨name, .file mode, by rw [← hfile, hbelow], below, rfl, .inl ⟨hbelow, mode, rfl⟩⟩
      · rw [← List.singleton_append, ← List.append_assoc] at hfile
        obtain ⟨mode', hdirectory⟩ := h.exists_directory hbelow hfile
        have hrest : below.length ≤ depth := by simpa using hlength
        exact ⟨name, .directory mode', hdirectory, below, rfl,
          .inr ⟨⟨hbelow, hrest, mode, hfile⟩, mode', rfl⟩⟩

/-- The files below a directory stand in the order of the names that lead to them: below one entry
the rest of the names decides, and between entries the first name does. -/
theorem pairwise_filesBelow (depth : Nat) (directory : Address) :
    (layout.filesBelow depth directory).Pairwise (· < ·) := by
  induction depth generalizing directory with
  | zero => exact .nil
  | succ depth ih =>
    rw [filesBelow, List.pairwise_flatMap]
    constructor
    · rintro ⟨name, shape⟩ -
      cases shape with
      | file mode => exact List.pairwise_singleton _ _
      | directory mode =>
        refine List.pairwise_map.mpr ((ih _).imp fun hlt => ?_)
        exact List.cons_lt_cons_iff.mpr (.inr ⟨rfl, hlt⟩)
      | link target => exact .nil
    · refine (h.pairwise_children directory).imp fun hlt names hnames names' hnames' => ?_
      obtain ⟨below, rfl, -⟩ := mem_filesAt_iff.mp hnames
      obtain ⟨below', rfl, -⟩ := mem_filesAt_iff.mp hnames'
      exact List.cons_lt_cons_iff.mpr (.inl hlt)

variable {root : Path} {place : Address} (hlinks : layout.Linkless)
  (hroot : layout.address true root = .ok place) (hlisted : layout.ListableBelow root place)
include hlinks hroot hlisted

/-- What is visited in a directory at a root or below it are the files below the directory. -/
theorem directoryVisits_eq {depth : Nat} (ancestors : List Walk.Ancestor) {names : List Name}
    {mode : Mode} (hdirectory : layout.shapeAt? (place ++ names) = some (.directory mode))
    (hdepth : pathLimit ≤ depth + (root.joinAll names).bytes.length) :
    Walk.directoryVisits layout depth ancestors (root.joinAll names) =
      (layout.filesBelow depth (place ++ names)).map fun below =>
        .ok (root.joinAll (names ++ below)) := by
  induction depth generalizing ancestors names mode with
  | zero =>
    obtain ⟨listed, hlisting⟩ := hlisted names mode hdirectory
    have hshort := (hlinks.listing_joinAll hroot (h.proper_of_shapeAt? hdirectory) hlisting).2
    omega
  | succ depth ih =>
    obtain ⟨listed, hlisting⟩ := hlisted names mode hdirectory
    obtain ⟨rfl, -⟩ := hlinks.listing_joinAll hroot (h.proper_of_shapeAt? hdirectory) hlisting
    rw [Walk.directoryVisits, hlisting, filesBelow, List.map_flatMap]
    refine List.flatMap_congr fun child hchild => ?_
    obtain ⟨name, shape⟩ := child
    rw [h.mem_children_iff] at hchild
    dsimp only at hchild ⊢
    cases shape with
    | file mode' => simp [Walk.entryVisits, filesAt, Path.joinAll_concat]
    | directory mode' =>
      rw [List.append_assoc] at hchild
      have hname := h.proper_of_shapeAt? hchild
      have hlonger := Path.length_lt_join (hname name (by simp)) (root.joinAll names)
      have hbelow := ih (⟨root.joinAll names, place ++ names⟩ :: ancestors) hchild (by
        rw [Path.joinAll_concat]
        omega)
      rw [Walk.entryVisits, ← Path.joinAll_concat, hbelow]
      simp [filesAt, Function.comp_def]
    | link target => exact absurd rfl (hlinks _ (mem_of_shapeAt? hchild) target)

/-- What is visited at a root that is a directory are the files below it. -/
theorem visits_eq {mode : Mode} (hplace : layout.shapeAt? place = some (.directory mode)) :
    Walk.visits layout root =
      (layout.filesBelow pathLimit place).map fun names => .ok (root.joinAll names) := by
  rw [← List.append_nil place] at hplace
  have hbelow := h.directoryVisits_eq hlinks hroot hlisted [] hplace (Nat.le_add_right pathLimit _)
  rw [List.append_nil] at hplace hbelow
  rw [Walk.visits, hlinks.entry_eq true, entry_eq_ok_iff.mpr ⟨hroot, hplace⟩]
  exact hbelow

/-- No file is deeper than the walk goes. -/
theorem length_le_pathLimit {names : List Name} {mode : Mode} (hnames : names ≠ [])
    (hfile : layout.shapeAt? (place ++ names) = some (.file mode)) : names.length ≤ pathLimit := by
  obtain ⟨above, last, rfl⟩ := (List.eq_nil_or_concat' names).resolve_left hnames
  rw [← List.append_assoc] at hfile
  obtain ⟨mode', hdirectory⟩ := h.exists_directory (List.cons_ne_nil _ _) hfile
  obtain ⟨listed, hlisting⟩ := hlisted above mode' hdirectory
  have hproper := h.proper_of_shapeAt? hdirectory
  have hshort := (hlinks.listing_joinAll hroot hproper hlisting).2
  have hlength := Path.length_add_le_joinAll hproper root
  rw [List.length_append, List.length_singleton]
  omega

end WellFormed

end Layout

/-- Visits of files are entries where their paths name source files. -/
theorem filterMap_entryOfVisit? (root : Path) (found : List (List Name)) :
    (found.map fun names => .ok (root.joinAll names)).filterMap entryOfVisit? =
      (found.filter fun names => (root.joinAll names).isSource).map
        fun names => .ok (root.joinAll names) := by
  induction found with
  | nil => rfl
  | cons names found ih =>
    rw [List.map_cons, List.filterMap_cons, List.filter_cons, entryOfVisit?, ih]
    split <;> simp_all

/-- In a tree without links, below a root that is a directory and whose directories can all be
listed, discovery meets no errors. It reports the files below the root whose names end in `.dart`
and have more than that, each once and by its path, in the order of the names that lead to them. -/
theorem discover_eq_ok_of_listable {layout : Layout} {root : Path} {place : Address} {mode : Mode}
    (hformed : layout.WellFormed) (hlinks : layout.Linkless)
    (hroot : layout.entry true root = .ok (place, .directory mode))
    (hlisted : layout.ListableBelow root place) :
    ∃ found : List (List Name),
      discover layout root = .ok (found.map fun names => .ok (root.joinAll names)) ∧
        (∀ names, names ∈ found ↔
          (∃ mode, layout.shapeAt? (place ++ names) = some (.file mode)) ∧
            ∃ name, names.getLast? = some name ∧ ascii ".dart" <:+ name ∧
              (ascii ".dart").length < name.length) ∧
        found.Pairwise (· < ·) ∧ (found.map root.joinAll).Nodup := by
  obtain ⟨haddress, hplace⟩ := Layout.entry_eq_ok_iff.mp hroot
  have hentries : entriesBelow layout root =
      ((layout.filesBelow pathLimit place).filter fun names => (root.joinAll names).isSource).map
        fun names => .ok (root.joinAll names) := by
    rw [entriesBelow_eq, hformed.visits_eq hlinks haddress hlisted hplace,
      filterMap_entryOfVisit?]
  have hdirectory : layout.isDirectory root = true := by
    rw [Layout.isDirectory, hroot]
  have hsorted := (hformed.pairwise_filesBelow pathLimit place).filter
    fun names => (root.joinAll names).isSource
  refine ⟨_, discover_eq_ok_iff.mpr ⟨hdirectory, hentries.symm⟩, fun names => ?_, hsorted, ?_⟩
  · rw [List.mem_filter, hformed.mem_filesBelow_iff]
    constructor
    · rintro ⟨⟨hnames, -, mode', hfile⟩, hsource⟩
      exact ⟨⟨mode', hfile⟩,
        (Path.isSource_joinAll_iff (hformed.proper_of_shapeAt? hfile) root hnames).mp hsource⟩
    · rintro ⟨⟨mode', hfile⟩, name, hlast, hname⟩
      have hnames : names ≠ [] := by
        rintro rfl
        cases hlast
      have hsource := Path.isSource_joinAll_iff (hformed.proper_of_shapeAt? hfile) root hnames
      exact ⟨⟨hnames, hformed.length_le_pathLimit hlinks haddress hlisted hnames hfile, mode',
        hfile⟩, hsource.mpr ⟨name, hlast, hname⟩⟩
  · refine List.pairwise_map.mpr (hsorted.imp_of_mem ?_)
    intro names names' hnames hnames' hlt hsame
    rw [List.mem_filter, hformed.mem_filesBelow_iff] at hnames hnames'
    obtain ⟨⟨-, -, mode, hfile⟩, -⟩ := hnames
    obtain ⟨⟨-, -, mode', hfile'⟩, -⟩ := hnames'
    have hboth := congrArg Path.names hsame
    rw [Path.names_joinAll (hformed.proper_of_shapeAt? hfile),
      Path.names_joinAll (hformed.proper_of_shapeAt? hfile'), List.append_cancel_left_eq] at hboth
    exact List.lt_irrefl names (hboth ▸ hlt)

/-- Directories named like a source file and like the beginning of one, a name that is nothing but
the extension, one that is not UTF-8, and entries in no order. -/
def mixedTree : Tree := ⟨[], [
  ([], .directory .full),
  ([ascii "r"], .directory .full),
  ([ascii "r", 0xff :: ascii ".dart"], .file (.ofBits 0) []),
  ([ascii "r", ascii ".dart"], .file .full []),
  ([ascii "r", ascii "a.dart"], .file .full []),
  ([ascii "r", ascii "a"], .directory .full),
  ([ascii "r", ascii "a", ascii "x.dart"], .file .full []),
  ([ascii "r", ascii "c.dart"], .directory .full),
  ([ascii "r", ascii "c.dart", ascii "..dart"], .file .full [])]⟩

/-- What is in the directory `a` comes before the file `a.dart`, though its path does not. -/
theorem discover_mixedTree :
    mixedTree.layout.WellFormed ∧ mixedTree.layout.Linkless ∧
      mixedTree.layout.entry true ⟨ascii "r/"⟩ = .ok ([ascii "r"], .directory .full) ∧
      mixedTree.layout.ListableBelow ⟨ascii "r/"⟩ [ascii "r"] ∧
      discover mixedTree.layout ⟨ascii "r/"⟩ =
          .ok [.ok ⟨ascii "r/a/x.dart"⟩, .ok ⟨ascii "r/a.dart"⟩, .ok ⟨ascii "r/c.dart/..dart"⟩,
            .ok ⟨ascii "r/" ++ 0xff :: ascii ".dart"⟩] ∧
      ∃ found : List (List Name),
        discover mixedTree.layout ⟨ascii "r/"⟩ =
            .ok (found.map fun names => .ok ((⟨ascii "r/"⟩ : Path).joinAll names)) ∧
          [ascii "a", ascii "x.dart"] ∈ found ∧ [ascii ".dart"] ∉ found ∧
            found.Pairwise (· < ·) := by
  have hformed : mixedTree.layout.WellFormed := by
    refine ⟨by decide +kernel, ?_, by decide +kernel⟩
    simp [mixedTree, Tree.layout, Node.shape]
  have hlinks : mixedTree.layout.Linkless := by
    simp [Layout.Linkless, mixedTree, Tree.layout, Node.shape]
  have hroot : mixedTree.layout.entry true ⟨ascii "r/"⟩ = .ok ([ascii "r"], .directory .full) := by
    decide +kernel
  have hlisted : mixedTree.layout.ListableBelow ⟨ascii "r/"⟩ [ascii "r"] := by
    intro names mode hdirectory
    have hmem := Layout.mem_of_shapeAt? hdirectory
    simp only [mixedTree, Tree.layout, Node.shape, List.map_cons, List.map_nil, List.mem_cons,
      List.not_mem_nil, List.cons_append, List.nil_append, Prod.mk.injEq, List.cons.injEq,
      Shape.directory.injEq, reduceCtorEq, true_and, false_and, and_false, false_or, or_false]
      at hmem
    rcases hmem with ⟨rfl, -⟩ | ⟨rfl, -⟩ | ⟨rfl, -⟩
    all_goals exact ⟨_, rfl⟩
  obtain ⟨found, hfound, hmem, hsorted, -⟩ :=
    discover_eq_ok_of_listable hformed hlinks hroot hlisted
  refine ⟨hformed, hlinks, hroot, hlisted, by decide +kernel, found, hfound, ?_, ?_, hsorted⟩
  · exact (hmem _).mpr ⟨⟨.full, by decide +kernel⟩, _, rfl, by decide +kernel, by decide +kernel⟩
  · rw [hmem]
    rintro ⟨-, name, ⟨⟩, -, hlength⟩
    exact absurd hlength (by decide)

end DebugSweep
