import Mathlib.Tactic.SplitIfs
import DebugSweep.Sweep.Cleaner

/-!
# What cleaning one file does to a tree

Cleaning writes at most one file, the one its path leads to, and leaves the layout as it was. It
writes unless the file is spared: its path is excluded, the run is a dry one, the file cannot be
read or written, it is no text, or stripping finds nothing in it.
-/

namespace DebugSweep

namespace Tree

/-- Changing one node leaves the others as they were. -/
theorem nodeAt?_modify (tree : Tree) (place : Address) (change : Node → Node) (address : Address) :
    (tree.modify place change).nodeAt? address =
      if address = place then (tree.nodeAt? address).map change else tree.nodeAt? address := by
  simp only [modify, nodeAt?]
  induction tree.entries with
  | nil => simp
  | cons entry entries ih =>
    obtain ⟨other, node⟩ := entry
    rw [List.map_cons]
    by_cases hother : other = place
    · subst hother
      by_cases haddress : address = other
      · subst haddress
        simp
      · rw [if_pos rfl, List.lookup_cons, List.lookup_cons, beq_false_of_ne haddress]
        exact ih
    · by_cases haddress : address = other
      · subst haddress
        simp [hother]
      · rw [if_neg hother, List.lookup_cons, List.lookup_cons, beq_false_of_ne haddress]
        exact ih

/-- New content in a file stands in it. -/
theorem nodeAt?_setContent_self {tree : Tree} {place : Address} {mode : Mode} {old : Bytes}
    (h : tree.nodeAt? place = some (.file mode old)) (content : Bytes) :
    (tree.setContent place content).nodeAt? place = some (.file mode content) := by
  rw [setContent, nodeAt?_modify, if_pos rfl, h]
  rfl

/-- New content in a file changes no other node. -/
theorem nodeAt?_setContent_of_ne {address place : Address} (h : address ≠ place) (tree : Tree)
    (content : Bytes) : (tree.setContent place content).nodeAt? address = tree.nodeAt? address := by
  rw [setContent, nodeAt?_modify, if_neg h]

/-- Writing changes the content of the file the path leads to. -/
theorem exists_of_write {tree written : Tree} {path : Path} {content : Bytes}
    (h : tree.write path content = .ok written) :
    ∃ place, tree.layout.address true path = .ok place ∧
      written = tree.setContent place content := by
  simp only [write, bind, Except.bind] at h
  split at h
  · cases h
  · rename_i place hplace
    split at h
    · split at h
      · cases h
        exact ⟨place, hplace, rfl⟩
      · cases h
    · cases h
    · cases h

/-- A file that is read has the content read, and permits reading. -/
theorem exists_of_read {tree : Tree} {path : Path} {content : Bytes}
    (h : tree.read path = .ok content) :
    ∃ address mode, tree.layout.address true path = .ok address ∧
      tree.nodeAt? address = some (.file mode content) ∧ mode.readable = true := by
  simp only [read, bind, Except.bind] at h
  split at h
  · cases h
  · rename_i address haddress
    split at h
    · rename_i mode content' hfile
      split at h
      · rename_i hreadable
        cases h
        exact ⟨address, mode, haddress, hfile, hreadable⟩
      · cases h
    · cases h
    · cases h

section File

variable {tree : Tree} {path : Path} {place : Address} {mode : Mode} {content : Bytes}

/-- A file is read through every path that leads to it, if it can be read. -/
theorem read_file (hplace : tree.layout.address true path = .ok place)
    (hfile : tree.nodeAt? place = some (.file mode content)) :
    tree.read path =
      if mode.readable then .ok content else .error (.system .permissionDenied) := by
  simp only [read, bind, Except.bind, hplace, hfile]

/-- A file is written through every path that leads to it, if it can be written. -/
theorem write_file (hplace : tree.layout.address true path = .ok place)
    (hfile : tree.nodeAt? place = some (.file mode content)) (new : Bytes) :
    tree.write path new =
      if mode.writable then .ok (tree.setContent place new)
      else .error (.system .permissionDenied) := by
  simp only [write, bind, Except.bind, hplace, hfile]

end File

end Tree

namespace Cleaner

/-- Cleaning leaves a file of this mode and content, reached by this path, as it is. -/
def Spares (cleaner : Cleaner) (path : Path) (mode : Mode) (content : Bytes) : Prop :=
  cleaner.excludes path = true ∨ cleaner.dryRun = true ∨ mode.readable = false ∨
    mode.writable = false ∨ Utf8.isValid content = false ∨
    (Strip.strip cleaner.strategy content).text = content

/-- Stripping a file changes nothing or the content of the file the path leads to. -/
theorem tree_of_stripFile {cleaner : Cleaner} {tree stripped : Tree} {path : Path}
    {removed : Option Nat} (h : cleaner.stripFile tree path = .ok (stripped, removed)) :
    stripped = tree ∨ ∃ place content, tree.layout.address true path = .ok place ∧
      stripped = tree.setContent place content := by
  simp only [stripFile] at h
  split at h
  · cases h
  · split at h
    · cases h
    · split at h
      · cases h
        exact .inl rfl
      · split at h
        · cases h
          exact .inl rfl
        · split at h
          · cases h
          · rename_i hwrite
            cases h
            obtain ⟨place, hplace, htree⟩ := Tree.exists_of_write hwrite
            exact .inr ⟨place, _, hplace, htree⟩

/-- Cleaning changes nothing or the content of the file the path leads to. -/
theorem tree_clean (cleaner : Cleaner) (session : Session) (path : Path) :
    (cleaner.clean session path).1.tree = session.tree ∨
      ∃ place content, session.tree.layout.address true path = .ok place ∧
        (cleaner.clean session path).1.tree = session.tree.setContent place content := by
  simp only [clean]
  split
  · exact .inl rfl
  · split
    · rename_i hstrip
      exact tree_of_stripFile hstrip
    · rename_i hstrip
      exact tree_of_stripFile hstrip
    · exact .inl rfl

/-- Cleaning leaves the layout as it was. -/
theorem layout_clean (cleaner : Cleaner) (session : Session) (path : Path) :
    (cleaner.clean session path).1.tree.layout = session.tree.layout := by
  obtain htree | ⟨place, content, -, htree⟩ := cleaner.tree_clean session path
  · rw [htree]
  · rw [htree, Tree.layout_setContent]

/-- Cleaning changes no node but the one the path leads to. -/
theorem nodeAt?_clean_of_ne (cleaner : Cleaner) {session : Session} {path : Path}
    {address : Address} (h : session.tree.layout.address true path ≠ .ok address) :
    (cleaner.clean session path).1.tree.nodeAt? address = session.tree.nodeAt? address := by
  obtain htree | ⟨place, content, hplace, htree⟩ := cleaner.tree_clean session path
  · rw [htree]
  · have hne : address ≠ place := by
      rintro rfl
      exact h hplace
    rw [htree, Tree.nodeAt?_setContent_of_ne hne]

section File

variable {cleaner : Cleaner} {session : Session} {path : Path} {place : Address} {mode : Mode}
  {content : Bytes}

/-- Stripping writes a file only if it can be read and written, is a text and changes, and not in a
dry run. -/
theorem eq_of_stripFile {tree stripped : Tree} {removed : Option Nat}
    (hplace : tree.layout.address true path = .ok place)
    (hfile : tree.nodeAt? place = some (.file mode content))
    (hstrip : cleaner.stripFile tree path = .ok (stripped, removed))
    (h : cleaner.dryRun = true ∨ mode.readable = false ∨ mode.writable = false ∨
      Utf8.isValid content = false ∨ (Strip.strip cleaner.strategy content).text = content) :
    stripped = tree := by
  simp only [stripFile, Tree.read_file hplace hfile, Tree.write_file hplace hfile] at hstrip
  cases hreadable : mode.readable with
  | false =>
    rw [hreadable] at hstrip
    cases hstrip
  | true =>
    simp only [hreadable, ↓reduceIte] at hstrip
    split_ifs at hstrip with hvalid htext hdryRun hwritable
    · cases hstrip
      rfl
    · cases hstrip
      rfl
    · simp_all

/-- A file that is spared is left as it is. -/
theorem tree_clean_of_spares (hplace : session.tree.layout.address true path = .ok place)
    (hfile : session.tree.nodeAt? place = some (.file mode content))
    (h : cleaner.Spares path mode content) :
    (cleaner.clean session path).1.tree = session.tree := by
  simp only [clean]
  split
  · rfl
  · rename_i hexcludes
    have hspares := h.resolve_left hexcludes
    split
    · rename_i hstrip
      exact eq_of_stripFile hplace hfile hstrip hspares
    · rename_i hstrip
      exact eq_of_stripFile hplace hfile hstrip hspares
    · rfl

/-- A file that is not spared is written. -/
theorem tree_clean_of_not_spares (hplace : session.tree.layout.address true path = .ok place)
    (hfile : session.tree.nodeAt? place = some (.file mode content))
    (h : ¬ cleaner.Spares path mode content) :
    (cleaner.clean session path).1.tree =
      session.tree.setContent place (Strip.strip cleaner.strategy content).text := by
  simp only [Spares, not_or, Bool.not_eq_true, Bool.not_eq_false] at h
  obtain ⟨hexcludes, hdryRun, hreadable, hwritable, hvalid, htext⟩ := h
  simp only [clean, stripFile, Tree.read_file hplace hfile, Tree.write_file hplace hfile,
    hexcludes, hdryRun, hreadable, hwritable, hvalid, htext, Bool.false_eq_true, ↓reduceIte,
    Bool.not_true]
  rfl

end File

end Cleaner

end DebugSweep
