import DebugSweep.Proofs.Tree.Names

/-!
# Listing the directories of a tree without links

In a well-formed layout every entry stands in a directory, under a name of its own, so a directory
lists each of its entries once, in the order of the names (`mem_children_iff`,
`pairwise_children`). Where there are no links, names are looked up one below the other, and a path
joined to that of a directory leads to the place below it (`WellFormed.listing_joinAll`).
-/

namespace DebugSweep

section Sorting

variable {α : Type}

theorem insertByKey_perm (entry : List Name × α) (entries : List (List Name × α)) :
    (insertByKey entry entries).Perm (entry :: entries) := by
  induction entries with
  | nil => exact .refl _
  | cons other others ih =>
    rw [insertByKey]
    split
    · exact .refl _
    · exact (ih.cons other).trans (.swap entry other others)

theorem sortByKey_perm (entries : List (List Name × α)) : (sortByKey entries).Perm entries := by
  induction entries with
  | nil => exact .refl _
  | cons entry entries ih => exact (insertByKey_perm entry _).trans (ih.cons entry)

/-- An entry is put where its key belongs. -/
theorem pairwise_insertByKey (entry : List Name × α) {entries : List (List Name × α)}
    (h : entries.Pairwise fun first later => first.1 ≤ later.1) :
    (insertByKey entry entries).Pairwise fun first later => first.1 ≤ later.1 := by
  induction entries with
  | nil => exact List.pairwise_singleton _ _
  | cons other others ih =>
    rw [List.pairwise_cons] at h
    rw [insertByKey]
    split
    · rename_i hlt
      refine List.pairwise_cons.mpr ⟨fun later hlater => ?_, List.pairwise_cons.mpr h⟩
      rcases List.mem_cons.mp hlater with rfl | hlater
      · exact Std.le_of_lt hlt
      · exact List.le_trans (Std.le_of_lt hlt) (h.1 later hlater)
    · rename_i hnot
      refine List.pairwise_cons.mpr ⟨fun later hlater => ?_, ih h.2⟩
      rcases List.mem_cons.mp ((insertByKey_perm entry others).mem_iff.mp hlater) with
        rfl | hlater
      · exact List.not_lt.mp hnot
      · exact h.1 later hlater

/-- Entries with keys of their own are sorted strictly. -/
theorem pairwise_sortByKey {entries : List (List Name × α)} (h : (entries.map Prod.fst).Nodup) :
    (sortByKey entries).Pairwise fun first later => first.1 < later.1 := by
  have hsorted : (sortByKey entries).Pairwise fun first later => first.1 ≤ later.1 := by
    clear h
    induction entries with
    | nil => exact .nil
    | cons entry entries ih => exact pairwise_insertByKey entry ih
  have hkeys := ((sortByKey_perm entries).map Prod.fst).nodup_iff.mpr h
  rw [List.nodup_iff_pairwise_ne, List.pairwise_map] at hkeys
  exact (hsorted.and hkeys).imp fun hboth => Std.lt_of_le_of_ne hboth.1 hboth.2

end Sorting

namespace Layout

/-- What a file system promises of the entries it holds. -/
structure WellFormed (layout : Layout) : Prop where
  /-- No two entries stand at one address. -/
  nodup : (layout.shapes.map Prod.fst).Nodup
  /-- Every entry but the top stands in a directory. -/
  directory_above : ∀ entry ∈ layout.shapes, entry.1 ≠ [] →
    ∃ mode, (entry.1.dropLast, .directory mode) ∈ layout.shapes
  /-- Every entry has a name that can be looked up. -/
  proper : ∀ entry ∈ layout.shapes, ∀ name ∈ entry.1, Name.Proper name

/-- Nothing in the layout is a link. -/
def Linkless (layout : Layout) : Prop :=
  ∀ entry ∈ layout.shapes, ∀ target, entry.2 ≠ .link target

variable {layout : Layout}

theorem mem_of_shapeAt? {address : Address} {shape : Shape}
    (h : layout.shapeAt? address = some shape) : (address, shape) ∈ layout.shapes := by
  obtain ⟨before, behind, hsplit, -⟩ := List.lookup_eq_some_iff.mp h
  rw [hsplit]
  exact List.mem_append_right _ List.mem_cons_self

namespace WellFormed

variable (h : layout.WellFormed)
include h

/-- Each entry is found at its address. -/
theorem shapeAt?_eq_some_iff {address : Address} {shape : Shape} :
    layout.shapeAt? address = some shape ↔ (address, shape) ∈ layout.shapes := by
  refine ⟨mem_of_shapeAt?, fun hmem => ?_⟩
  obtain ⟨before, behind, hsplit⟩ := List.append_of_mem hmem
  refine List.lookup_eq_some_iff.mpr ⟨before, behind, hsplit, fun other hother => ?_⟩
  have hnodup := h.nodup
  rw [hsplit, List.map_append, List.map_cons, List.nodup_append] at hnodup
  exact bne_iff_ne.mpr
    (hnodup.2.2 other.1 (List.mem_map_of_mem hother) address List.mem_cons_self).symm

/-- What an entry stands below is a directory. -/
theorem exists_directory {place : Address} {names : List Name} (hnames : names ≠ [])
    {shape : Shape} (hshape : layout.shapeAt? (place ++ names) = some shape) :
    ∃ mode, layout.shapeAt? place = some (.directory mode) := by
  induction names using List.reverseRecOn generalizing shape with
  | nil => exact absurd rfl hnames
  | append_singleton above name ih =>
    rw [← List.append_assoc] at hshape
    obtain ⟨mode, hmode⟩ := h.directory_above _ (mem_of_shapeAt? hshape) (by simp)
    rw [List.dropLast_concat, ← h.shapeAt?_eq_some_iff] at hmode
    by_cases habove : above = []
    · rw [habove, List.append_nil] at hmode
      exact ⟨mode, hmode⟩
    · exact ih habove hmode

/-- What an entry is called below another can be looked up. -/
theorem proper_of_shapeAt? {place : Address} {names : List Name} {shape : Shape}
    (hshape : layout.shapeAt? (place ++ names) = some shape) :
    ∀ name ∈ names, Name.Proper name := fun name hname =>
  h.proper _ (mem_of_shapeAt? hshape) name (List.mem_append_right _ hname)

end WellFormed

/-- A directory holds what stands one name below it. -/
theorem childKey_eq_some_iff {directory place : Address} {shape : Shape} {key : List Name}
    {child : Name × Shape} :
    (place.getLast?.bind fun name =>
        if place.dropLast = directory then some ([name], (name, shape)) else none) =
          some (key, child) ↔
      key = [child.1] ∧ place = directory ++ [child.1] ∧ shape = child.2 := by
  rcases List.eq_nil_or_concat' place with rfl | ⟨above, last, rfl⟩
  · simp
  · obtain ⟨name, shape'⟩ := child
    rw [List.getLast?_concat, List.dropLast_concat, Option.bind_some]
    constructor
    · intro hsome
      split at hsome
      · cases hsome
        simp_all
      · cases hsome
    · rintro ⟨rfl, hplace, rfl⟩
      obtain ⟨rfl, rfl⟩ := List.append_singleton_inj.mp hplace
      exact if_pos rfl

namespace WellFormed

variable (h : layout.WellFormed) (directory : Address)
include h

/-- A directory lists what stands one name below it. -/
theorem mem_children_iff {child : Name × Shape} :
    child ∈ layout.children directory ↔
      layout.shapeAt? (directory ++ [child.1]) = some child.2 := by
  rw [h.shapeAt?_eq_some_iff, children, List.mem_map]
  simp only [(sortByKey_perm _).mem_iff, List.mem_filterMap, childKey_eq_some_iff, Prod.exists]
  constructor
  · rintro ⟨key, name, shape, ⟨place, shape', hmem, -, rfl, rfl⟩, rfl⟩
    exact hmem
  · exact fun hmem => ⟨[child.1], child.1, child.2, ⟨_, _, hmem, rfl, rfl, rfl⟩, rfl⟩

/-- A directory lists each name once, in the byte order of the names. -/
theorem pairwise_children :
    (layout.children directory).Pairwise fun first later => first.1 < later.1 := by
  have hnodup := h.nodup
  rw [List.nodup_iff_pairwise_ne, List.pairwise_map] at hnodup
  rw [children, List.pairwise_map]
  refine (pairwise_sortByKey ?_).imp_of_mem ?_
  · rw [List.nodup_iff_pairwise_ne, List.pairwise_map, List.pairwise_filterMap]
    refine hnodup.imp fun hne first hfirst later hlater hkeys => hne ?_
    obtain ⟨hkey, hplace, -⟩ := childKey_eq_some_iff.mp hfirst
    obtain ⟨hkey', hplace', -⟩ := childKey_eq_some_iff.mp hlater
    rw [hplace, hplace', ← hkey, ← hkey', hkeys]
  · intro first later hfirst hlater hlt
    rw [(sortByKey_perm _).mem_iff, List.mem_filterMap] at hfirst hlater
    obtain ⟨_, _, hfirst⟩ := hfirst
    obtain ⟨_, _, hlater⟩ := hlater
    rw [(childKey_eq_some_iff.mp hfirst).1, (childKey_eq_some_iff.mp hlater).1,
      List.cons_lt_cons_iff] at hlt
    exact hlt.resolve_right fun hnil => List.not_lt_nil [] hnil.2

end WellFormed

section Descent

variable {followLast followLast' : Bool}
  {follow follow' : Address → Path → List Name → Except Errno Address}

/-- Where there are no links, names are looked up one by one, however links are followed. -/
theorem Linkless.descend_cons (h : layout.Linkless) (place : Address) (name : Name)
    (names : List Name) (followLast' : Bool)
    (follow' : Address → Path → List Name → Except Errno Address) :
    layout.descend followLast follow place (name :: names) =
      layout.descend followLast' follow' place [name] >>= fun next =>
        layout.descend followLast follow next names := by
  simp only [descend]
  cases layout.shapeAt? place with
  | none => rfl
  | some shape =>
    cases shape with
    | file mode => rfl
    | link target => rfl
    | directory mode =>
      cases hnext : layout.shapeAt? (place ++ [name]) with
      | none => simp only; split_ifs <;> rfl
      | some shape =>
        cases shape with
        | file mode => simp only; split_ifs <;> rfl
        | directory mode => simp only; split_ifs <;> rfl
        | link target => exact absurd rfl (h _ (mem_of_shapeAt? hnext) target)

/-- Where there are no links, it does not matter how links are followed. -/
theorem Linkless.descend_eq (h : layout.Linkless) (place : Address) (names : List Name) :
    layout.descend followLast follow place names =
      layout.descend followLast' follow' place names := by
  induction names generalizing place with
  | nil => rfl
  | cons name names ih =>
    rw [h.descend_cons place name names true follow, h.descend_cons place name names true follow]
    exact congrArg _ (funext fun next => ih next)

/-- Where there are no links, names are looked up in portions. -/
theorem Linkless.descend_append (h : layout.Linkless) (place : Address)
    (first second : List Name) :
    layout.descend followLast follow place (first ++ second) =
      layout.descend followLast follow place first >>= fun next =>
        layout.descend followLast follow next second := by
  induction first generalizing place with
  | nil => rfl
  | cons name first ih =>
    rw [List.cons_append, h.descend_cons place name (first ++ second) true follow,
      h.descend_cons place name first true follow]
    cases layout.descend true follow place [name] with
    | error errno => rfl
    | ok next => exact ih next

/-- A name that can be that of an entry is looked up one below the other. -/
theorem Linkless.eq_of_descend_singleton (h : layout.Linkless) {place found : Address}
    {name : Name} (hname : Name.Proper name)
    (hfound : layout.descend followLast follow place [name] = .ok found) :
    found = place ++ [name] := by
  simp only [descend, if_neg hname.ne_nil, if_neg hname.ne_here, if_neg hname.ne_above] at hfound
  split at hfound
  · split_ifs at hfound
    all_goals
      split at hfound
      · cases hfound
      · rename_i target hlink
        exact absurd rfl (h _ (mem_of_shapeAt? hlink) target)
      · cases hfound
        rfl
  · cases hfound

/-- A slash at the end leads nowhere else. -/
theorem descend_slash {place found : Address}
    (hfound : layout.descend followLast follow place [[]] = .ok found) :
    (.ok place : Except Errno Address) = .ok found := by
  simp only [descend, ↓reduceIte] at hfound
  split at hfound
  · exact hfound
  · cases hfound

/-- Where there are no links, what is looked up stands below where the search begins. -/
theorem Linkless.eq_append_of_descend (h : layout.Linkless) {place found : Address}
    {names : List Name} (hnames : ∀ name ∈ names, Name.Proper name)
    (hfound : layout.descend followLast follow place names = .ok found) :
    found = place ++ names := by
  induction names generalizing place with
  | nil =>
    cases hfound
    exact (List.append_nil _).symm
  | cons name names ih =>
    rw [List.forall_mem_cons] at hnames
    rw [h.descend_cons place name names true follow] at hfound
    cases hnext : layout.descend true follow place [name] with
    | error errno =>
      rw [hnext] at hfound
      cases hfound
    | ok next =>
      rw [hnext] at hfound
      rw [ih hnames.2 hfound, h.eq_of_descend_singleton hnames.1 hnext, List.append_assoc,
        List.singleton_append]

end Descent

section Resolution

variable {followLast : Bool} {path root : Path} {place found : Address} {names : List Name}

/-- A path that leads anywhere is neither empty nor too long, and what it names is looked up. -/
theorem exists_descend_of_address (h : layout.address followLast path = .ok found) :
    path.bytes ≠ [] ∧ path.bytes.length < pathLimit ∧
      ∃ follow, layout.descend followLast follow (path.origin layout.work) path.steps =
        .ok found := by
  rw [address] at h
  split_ifs at h with hzero hlimit hempty
  refine ⟨hempty, Nat.lt_of_not_le hlimit, ?_⟩
  cases hfound : layout.lookUp followLast linkLimit (path.origin layout.work) path.steps with
  | error errno =>
    rw [hfound] at h
    cases h
  | ok address =>
    rw [hfound] at h
    cases h
    exact ⟨_, hfound⟩

theorem entry_eq_ok_iff {shape : Shape} :
    layout.entry followLast path = .ok (found, shape) ↔
      layout.address followLast path = .ok found ∧ layout.shapeAt? found = some shape := by
  simp only [entry, bind, Except.bind]
  cases layout.address followLast path with
  | error fault => simp
  | ok address =>
    dsimp only
    constructor
    · intro h
      split at h
      · rename_i hshape
        cases h
        exact ⟨rfl, hshape⟩
      · cases h
    · rintro ⟨⟨⟩, hshape⟩
      simp only [hshape]

namespace Linkless

variable (h : layout.Linkless)
include h

/-- Where there are no links, it does not matter whether one at the end is followed. -/
theorem entry_eq (followLast' : Bool) :
    layout.entry followLast path = layout.entry followLast' path := by
  have hlookUp : layout.lookUp followLast linkLimit (path.origin layout.work) path.steps =
      layout.lookUp followLast' linkLimit (path.origin layout.work) path.steps :=
    h.descend_eq _ path.steps
  simp only [entry, address, hlookUp]

/-- Names joined to the path of a directory lead to the place below it, if they lead anywhere. -/
theorem eq_append_of_address_joinAll (hroot : layout.address true root = .ok place)
    (hnames : ∀ name ∈ names, Name.Proper name)
    (hfound : layout.address true (root.joinAll names) = .ok found) : found = place ++ names := by
  obtain ⟨hempty, -, follow, hplace⟩ := exists_descend_of_address hroot
  obtain ⟨-, -, follow', hbelow⟩ := exists_descend_of_address hfound
  rcases List.eq_nil_or_concat' names with rfl | ⟨above, last, rfl⟩
  · rw [Path.joinAll_nil, hroot] at hfound
    cases hfound
    exact (List.append_nil place).symm
  rw [Path.origin_joinAll hempty] at hbelow
  have habove : layout.descend true follow' (root.origin layout.work) root.names = .ok place := by
    have hplace : layout.descend true follow' (root.origin layout.work) root.steps = .ok place :=
      (h.descend_eq _ root.steps).trans hplace
    rcases root.steps_eq with hsteps | hsteps
    · rw [← hsteps, hplace]
    · rw [hsteps, h.descend_append] at hplace
      cases hnext : layout.descend true follow' (root.origin layout.work) root.names with
      | error errno =>
        rw [hnext] at hplace
        cases hplace
      | ok next =>
        rw [hnext] at hplace
        exact descend_slash hplace
  rw [Path.joinAll_concat, Path.steps_join (hnames last (by simp)),
    Path.names_joinAll fun name hname => hnames name (List.mem_append_left _ hname),
    List.append_assoc, h.descend_append, habove] at hbelow
  exact h.eq_append_of_descend hnames hbelow

/-- Names joined to the path of a directory that can be listed list the place below it. -/
theorem listing_joinAll (hroot : layout.address true root = .ok place)
    (hnames : ∀ name ∈ names, Name.Proper name) {listed : Address × List (Name × Shape)}
    (hlisted : layout.listing (root.joinAll names) = .ok listed) :
    listed = (place ++ names, layout.children (place ++ names)) ∧
      (root.joinAll names).bytes.length < pathLimit := by
  simp only [listing, bind, Except.bind] at hlisted
  split at hlisted
  · cases hlisted
  · rename_i entry hentry
    split at hlisted
    · split_ifs at hlisted
      cases hlisted
      obtain ⟨haddress, -⟩ := entry_eq_ok_iff.mp hentry
      rw [h.eq_append_of_address_joinAll hroot hnames haddress]
      exact ⟨rfl, (exists_descend_of_address haddress).2.1⟩
    · cases hlisted

end Linkless

end Resolution

end Layout

end DebugSweep
