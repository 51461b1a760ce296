import Mathlib.Data.List.Infix
import DebugSweep.Tree.Resolve

/-!
# The names of a path

Joining a name to a path adds it to the names of the path, whatever slashes the path ends with
(`Path.names_join`), and the names of the joined path are what is looked up (`Path.steps_join`).
Whether the joined path names a source file can be read off the name alone
(`Path.isSource_join_iff`).
-/

namespace DebugSweep

section Pieces

variable {separator : UInt8}

theorem splitAtByte_ne_nil (text : Bytes) : splitAtByte separator text ≠ [] := by
  cases text with
  | nil => exact List.cons_ne_nil _ _
  | cons b text =>
    rw [splitAtByte]
    split
    · exact List.cons_ne_nil _ _
    · split <;> exact List.cons_ne_nil _ _

/-- A text without the separator is one piece. -/
theorem splitAtByte_of_not_mem {text : Bytes} (h : separator ∉ text) :
    splitAtByte separator text = [text] := by
  induction text with
  | nil => rfl
  | cons b text ih =>
    rw [List.mem_cons, not_or] at h
    rw [splitAtByte, if_neg fun hb => h.1 hb.symm, ih h.2]

/-- A separator ends the pieces before it. -/
theorem splitAtByte_append (first second : Bytes) :
    splitAtByte separator (first ++ separator :: second) =
      splitAtByte separator first ++ splitAtByte separator second := by
  induction first with
  | nil => simp [splitAtByte]
  | cons b first ih =>
    have hne : splitAtByte separator first ≠ [] := splitAtByte_ne_nil first
    obtain ⟨piece, pieces, hpieces⟩ := List.exists_cons_of_ne_nil hne
    rw [List.cons_append, splitAtByte, splitAtByte, ih, hpieces]
    split <;> rfl

/-- Pieces with a separator after each of them are cut off one by one. -/
theorem splitAtByte_flatMap {pieces : List Bytes} (h : ∀ piece ∈ pieces, separator ∉ piece)
    (rest : Bytes) :
    splitAtByte separator (pieces.flatMap (· ++ [separator]) ++ rest) =
      pieces ++ splitAtByte separator rest := by
  induction pieces with
  | nil => rfl
  | cons piece pieces ih =>
    rw [List.forall_mem_cons] at h
    rw [List.flatMap_cons, List.append_assoc, List.append_assoc, List.singleton_append,
      splitAtByte_append, splitAtByte_of_not_mem h.1, ih h.2, List.singleton_append,
      List.cons_append]

end Pieces

namespace Name

/-- What an entry of a directory can be called. -/
structure Proper (name : Name) : Prop where
  ne_nil : name ≠ []
  ne_here : name ≠ Path.here
  ne_above : name ≠ Path.above
  slash_not_mem : Byte.slash ∉ name

instance (name : Name) : Decidable name.Proper :=
  decidable_of_iff (name ≠ [] ∧ name ≠ Path.here ∧ name ≠ Path.above ∧ Byte.slash ∉ name)
    ⟨fun ⟨hnil, hhere, habove, hslash⟩ => ⟨hnil, hhere, habove, hslash⟩,
      fun ⟨hnil, hhere, habove, hslash⟩ => ⟨hnil, hhere, habove, hslash⟩⟩

/-- The extension of a name stands behind its last dot, and the name goes on before the dot. -/
theorem extension?_eq_some_iff {name : Name} {extension : Bytes} :
    extension? name = some extension ↔
      Byte.dot ∉ extension ∧ Byte.dot :: extension <:+ name ∧
        (Byte.dot :: extension).length < List.length name := by
  rw [extension?]
  constructor
  · intro h
    split at h
    · rename_i hlength
      cases h
      have hsplit := List.takeWhile_append_dropWhile (p := (· != Byte.dot)) (l := name.reverse)
      have hdot := List.head?_dropWhile_not (· != Byte.dot) name.reverse
      have hbytes : Byte.dot ∉ name.reverse.takeWhile (· != Byte.dot) := fun hmem => by
        simpa using List.all_eq_true.mp List.all_takeWhile _ hmem
      cases hrest : name.reverse.dropWhile (· != Byte.dot) with
      | nil =>
        rw [hrest, List.append_nil] at hsplit
        rw [hsplit, List.length_reverse, List.length_reverse] at hlength
        exact absurd hlength (Nat.not_succ_lt_self)
      | cons b before =>
        rw [hrest, List.head?_cons] at hdot
        obtain rfl : b = Byte.dot := by simpa using hdot
        rw [hrest] at hsplit
        have hname := congrArg List.reverse hsplit
        rw [List.reverse_append, List.reverse_cons, List.append_assoc,
          List.reverse_reverse] at hname
        exact ⟨by simpa using hbytes, ⟨_, hname⟩, by simpa using hlength⟩
    · cases h
  · rintro ⟨hbytes, ⟨before, rfl⟩, hlength⟩
    have htake : (before ++ Byte.dot :: extension).reverse.takeWhile (· != Byte.dot) =
        extension.reverse := by
      rw [List.reverse_append, List.reverse_cons, List.append_assoc,
        List.takeWhile_append_of_pos, List.singleton_append, List.takeWhile_cons_of_neg (by simp),
        List.append_nil]
      intro b hb
      rw [List.mem_reverse] at hb
      simpa using ne_of_mem_of_not_mem hb hbytes
    rw [htake, List.reverse_reverse]
    exact if_pos hlength

end Name

namespace Path

/-- The names between the slashes of a path. -/
def names (path : Path) : List Name := path.pieces.filter (· != [])

/-- The path of what the names lead to from the directory at `path`. -/
def joinAll (path : Path) (names : List Name) : Path := names.foldl join path

@[simp] theorem joinAll_nil (path : Path) : path.joinAll [] = path := rfl

/-- The names may be joined in portions. -/
theorem joinAll_append (path : Path) (first second : List Name) :
    path.joinAll (first ++ second) = (path.joinAll first).joinAll second :=
  List.foldl_append

/-- The last name may be joined last. -/
theorem joinAll_concat (path : Path) (names : List Name) (name : Name) :
    path.joinAll (names ++ [name]) = (path.joinAll names).join name :=
  path.joinAll_append names [name]

/-- What is looked up are the names; a slash at the end asks for a directory. -/
theorem steps_eq (path : Path) : path.steps = path.names ∨ path.steps = path.names ++ [[]] := by
  obtain ⟨pieces, last, hpieces⟩ : ∃ pieces last, path.pieces = pieces ++ [last] :=
    ⟨_, _, (List.dropLast_concat_getLast (splitAtByte_ne_nil _)).symm⟩
  rw [steps, names, hpieces, List.dropLast_concat, List.getLast?_concat, List.filter_append]
  by_cases hlast : last = []
  · exact .inr (by simp [hlast])
  · exact .inl (by simp [hlast])

/-- A name joined to a path is read from where the path is read. -/
theorem origin_join {path : Path} (h : path.bytes ≠ []) (name : Name) (place : Address) :
    (path.join name).origin place = path.origin place := by
  obtain ⟨before, last, hbytes⟩ := (List.eq_nil_or_concat' path.bytes).resolve_left h
  have hlast : path.bytes.getLast? = some last := by rw [hbytes, List.getLast?_concat]
  have habsolute : (path.join name).isAbsolute = path.isAbsolute := by
    simp only [isAbsolute, join, hlast, List.head?_append_of_ne_nil _ h]
  rw [origin, origin, habsolute]

/-- A joined path is as little empty as the one it begins with. -/
theorem bytes_join_ne_nil {path : Path} (h : path.bytes ≠ []) (name : Name) :
    (path.join name).bytes ≠ [] := by
  rw [join]
  split
  · rename_i hnone
    exact absurd (List.getLast?_eq_none_iff.mp hnone) h
  · exact List.append_ne_nil_of_left_ne_nil h _

/-- Names joined to a path are read from where the path is read. -/
theorem origin_joinAll {path : Path} (h : path.bytes ≠ []) (names : List Name) (place : Address) :
    (path.joinAll names).origin place = path.origin place := by
  induction names generalizing path with
  | nil => rfl
  | cons name names ih => exact (ih (bytes_join_ne_nil h name)).trans (origin_join h name place)

section Join

variable {name : Name} (h : Name.Proper name) (path : Path)
include h

/-- The name is the last piece of the joined path. -/
theorem exists_pieces_join :
    ∃ pieces, (path.join name).pieces = pieces ++ [name] ∧
      pieces.filter (· != []) = path.names := by
  rw [join, names, pieces, pieces]
  cases hlast : path.bytes.getLast? with
  | none =>
    rw [List.getLast?_eq_none_iff] at hlast
    exact ⟨[], splitAtByte_of_not_mem h.slash_not_mem, by rw [hlast]; rfl⟩
  | some last =>
    obtain ⟨before, hbefore⟩ := List.getLast?_eq_some_iff.mp hlast
    by_cases hslash : last = Byte.slash
    · refine ⟨splitAtByte Byte.slash before, ?_, ?_⟩
      · simp only [hslash, ↓reduceIte]
        rw [hbefore, hslash, List.append_assoc, List.singleton_append, splitAtByte_append,
          splitAtByte_of_not_mem h.slash_not_mem]
      · rw [hbefore, hslash, splitAtByte_append]
        simp [splitAtByte]
    · refine ⟨splitAtByte Byte.slash path.bytes, ?_, rfl⟩
      simp only [hslash, ↓reduceIte]
      rw [splitAtByte_append, splitAtByte_of_not_mem h.slash_not_mem]

/-- A joined name is the last of the names. -/
theorem names_join : (path.join name).names = path.names ++ [name] := by
  obtain ⟨pieces, hpieces, hnames⟩ := exists_pieces_join h path
  rw [names, hpieces, List.filter_append, hnames, List.filter_cons_of_pos (by simpa using h.ne_nil),
    List.filter_nil]

/-- All names of a joined path are looked up, and nothing else. -/
theorem steps_join : (path.join name).steps = path.names ++ [name] := by
  obtain ⟨pieces, hpieces, hnames⟩ := exists_pieces_join h path
  rw [steps, hpieces, List.dropLast_concat, List.getLast?_concat, hnames]
  rfl

/-- A joined name is the last name. -/
theorem fileName?_join : (path.join name).fileName? = some name := by
  have hfilter : (path.join name).pieces.filter (fun piece => piece != [] && piece != here) =
      path.names.filter (· != here) ++ [name] := by
    have hboth := List.filter_filter (p := (· != here)) (q := (· != []))
      (l := (path.join name).pieces)
    rw [← names, names_join h, List.filter_append,
      List.filter_cons_of_pos (by simpa using h.ne_here), List.filter_nil] at hboth
    rw [hboth]
    simp only [Bool.and_comm]
  rw [fileName?, hfilter, List.getLast?_concat, Option.filter_some,
    if_pos (by simpa using h.ne_above)]

/-- Whether a joined path names a source file is up to the name. -/
theorem isSource_join_iff :
    (path.join name).isSource = true ↔
      ascii ".dart" <:+ name ∧ (ascii ".dart").length < List.length name := by
  have hdot : Byte.dot ∉ ascii sourceExtension := by decide
  have hends : Byte.dot :: ascii sourceExtension = ascii ".dart" := rfl
  rw [isSource, fileName?_join h, Option.bind_some, beq_iff_eq, Name.extension?_eq_some_iff, hends]
  exact and_iff_right hdot

/-- A joined path is longer. -/
theorem length_lt_join : path.bytes.length < (path.join name).bytes.length := by
  have hname := List.length_pos_of_ne_nil h.ne_nil
  rw [join]
  split
  · rename_i hlast
    rw [List.getLast?_eq_none_iff.mp hlast]
    exact hname
  · rename_i last hlast
    rw [List.length_append]
    split
    · omega
    · rw [List.length_cons]
      omega

end Join

section JoinAll

variable {found : List Name} (h : ∀ name ∈ found, Name.Proper name) (path : Path)
include h

/-- The names of a path are those of the path it was joined to and those joined to it. -/
theorem names_joinAll : (path.joinAll found).names = path.names ++ found := by
  induction found generalizing path with
  | nil => rw [joinAll_nil, List.append_nil]
  | cons name found ih =>
    rw [List.forall_mem_cons] at h
    have hnames := ih h.2 (path.join name)
    rw [names_join h.1, List.append_assoc] at hnames
    exact hnames

/-- Whether a path names a source file is up to the last name joined to it. -/
theorem isSource_joinAll_iff (hfound : found ≠ []) :
    (path.joinAll found).isSource = true ↔
      ∃ name, found.getLast? = some name ∧ ascii ".dart" <:+ name ∧
        (ascii ".dart").length < List.length name := by
  obtain ⟨above, last, rfl⟩ := (List.eq_nil_or_concat' found).resolve_left hfound
  rw [joinAll_concat, isSource_join_iff (h last (by simp)), List.getLast?_concat]
  simp

/-- A path is longer by a byte at least for every name joined to it. -/
theorem length_add_le_joinAll :
    path.bytes.length + found.length ≤ (path.joinAll found).bytes.length := by
  induction found generalizing path with
  | nil => exact Nat.le_refl _
  | cons name found ih =>
    rw [List.forall_mem_cons] at h
    have hrest := ih h.2 (path.join name)
    have hname := length_lt_join h.1 path
    rw [List.length_cons]
    exact Nat.le_trans (by omega) hrest

end JoinAll

end Path

end DebugSweep
