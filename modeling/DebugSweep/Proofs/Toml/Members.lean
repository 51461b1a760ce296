import Mathlib.Data.List.Nodup
import Mathlib.Tactic.SplitIfs
import DebugSweep.Toml.Document

/-!
# Keys of a table

Whatever the lines of a document do, the keys of the table that they build up stay
(`keys_of_addLines?`). A line that begins with a name, be it of a key that is set or of a table that
is opened, is read only where no string stands under this name, and puts the name among the keys
(`BeginsWith.admits`).
-/

namespace DebugSweep.Toml

/-- The keys of a table. -/
abbrev Members.keys (members : Members) : List (List Char) := members.map Prod.fst

/-- A name is added to a table, or something inside what is there under this name. -/
structure Members.Admits (members : Members) (name : List Char) (after : Members) : Prop where
  /-- Nothing can be added in the place of a string, or inside one. -/
  free : ∀ value, members.lookup name ≠ some (.text value)
  added : name ∈ after.keys
  kept : members.keys ⊆ after.keys

section Members

variable {members after inner : Members} {item : Item} {key : List Char} {path : List (List Char)}
  {origin : Origin}

/-- Nothing is found exactly for what is no key. -/
theorem lookup_eq_none_iff : members.lookup key = none ↔ key ∉ members.keys := by
  rw [List.lookup_eq_none_iff, Members.keys, List.mem_map, not_exists]
  refine forall_congr' fun member => ?_
  rw [not_and, bne_iff_ne, ne_comm]

/-- A key that is there cannot be set. -/
theorem set?_singleton :
    members.set? item [key] =
      if key ∈ members.keys then none else some (members ++ [(key, item)]) := by
  rw [Members.set?]
  split
  · rename_i h
    rw [if_neg (lookup_eq_none_iff.mp h)]
  · rename_i h
    rw [if_pos]
    by_contra hkey
    rw [lookup_eq_none_iff.mpr hkey] at h
    cases h

/-- No key is there twice after a new one has been set. -/
theorem nodup_keys_append :
    (members ++ [(key, item)]).keys.Nodup ↔ key ∉ members.keys ∧ members.keys.Nodup := by
  rw [Members.keys, List.map_append, List.map_singleton, ← List.concat_eq_append,
    List.nodup_concat]

/-- A name that is not there can be added. -/
theorem admits_append (h : members.lookup key = none) :
    members.Admits key (members ++ [(key, item)]) where
  free value htext := by
    rw [h] at htext
    cases htext
  added := by simp [Members.keys]
  kept := by simp [Members.keys]

/-- Replacing a value leaves the keys as they were. -/
theorem keys_replace : (members.replace key item).keys = members.keys := by
  rw [Members.replace, Members.keys, Members.keys, List.map_map]
  refine List.map_congr_left fun member _ => ?_
  rw [Function.comp_apply]
  split_ifs with h
  · exact h.symm
  · rfl

/-- A table that is there can be replaced. -/
theorem admits_replace (h : members.lookup key = some (.table origin inner)) :
    members.Admits key (members.replace key item) where
  free value htext := by
    rw [h] at htext
    cases htext
  added := by
    rw [keys_replace]
    by_contra hkey
    rw [lookup_eq_none_iff.mpr hkey] at h
    cases h
  kept := by
    rw [keys_replace]
    exact List.Subset.refl _

/-- Setting a key adds the first of its names. -/
theorem admits_of_set? (h : members.set? item (key :: path) = some after) :
    members.Admits key after := by
  cases path with
  | nil =>
    rw [Members.set?] at h
    split at h
    · rename_i hlookup
      cases h
      exact admits_append hlookup
    · cases h
  | cons next path =>
    rw [Members.set?] at h
    · split at h
      · rename_i hlookup
        obtain ⟨inner, -, h⟩ := Option.bind_eq_some_iff.mp h
        cases h
        exact admits_append hlookup
      · rename_i hlookup
        obtain ⟨inner, -, h⟩ := Option.bind_eq_some_iff.mp h
        cases h
        exact admits_replace hlookup
      · cases h
    · exact fun h => nomatch h

/-- Opening a table adds the first of its names. -/
theorem admits_of_openTable? (h : members.openTable? (key :: path) = some after) :
    members.Admits key after := by
  cases path with
  | nil =>
    rw [Members.openTable?] at h
    split at h
    · rename_i hlookup
      cases h
      exact admits_append hlookup
    · rename_i hlookup
      cases h
      exact admits_replace hlookup
    · cases h
  | cons next path =>
    rw [Members.openTable?] at h
    · split at h
      · rename_i hlookup
        obtain ⟨inner, -, h⟩ := Option.bind_eq_some_iff.mp h
        cases h
        exact admits_append hlookup
      · cases h
      · rename_i hlookup
        obtain ⟨inner, -, h⟩ := Option.bind_eq_some_iff.mp h
        cases h
        exact admits_replace hlookup
      · cases h
    · exact fun h => nomatch h

/-- A change somewhere inside a table takes no key out if the change itself takes none out. -/
theorem keys_of_change? {change : Members → Option Members}
    (hchange : ∀ {before changed : Members}, change before = some changed →
      before.keys ⊆ changed.keys)
    (h : members.change? change path = some after) : members.keys ⊆ after.keys := by
  cases path with
  | nil => exact hchange h
  | cons key path =>
    rw [Members.change?] at h
    split at h
    · rename_i hlookup
      obtain ⟨inner, -, h⟩ := Option.bind_eq_some_iff.mp h
      cases h
      exact (admits_replace hlookup).kept
    · cases h

end Members

section Lines

variable {members changed : Members} {building after : Building} {token : Token}
  {name : List Char} {line rest : List Token}

/-- The tokens of a line that begins with a name, as one does that sets a key, or with brackets
before a name, as one does that opens a table. -/
inductive BeginsWith (name : List Char) : List Token → Prop where
  | name {token : Token} {rest : List Token} (hname : name? token = some name) :
    BeginsWith name (token :: rest)
  | bracket {line : List Token} (hline : BeginsWith name line) :
    BeginsWith name (.openBracket :: line)

/-- The first name of a key is that of its first token. -/
theorem exists_of_key? (hname : name? token = some name) {path : List (List Char)}
    (h : key? (token :: rest) = some path) : ∃ names, path = name :: names := by
  match rest with
  | [] =>
    simp only [key?, hname, Option.bind_eq_bind, Option.bind_some, Option.some.injEq] at h
    exact ⟨[], h.symm⟩
  | next :: rest =>
    rw [key?.eq_def] at h
    split at h
    · cases h
    · rename_i heq
      cases heq
    · rename_i heq
      cases heq
      simp only [hname, Option.bind_eq_bind, Option.bind_some] at h
      obtain ⟨names, -, h⟩ := Option.bind_eq_some_iff.mp h
      exact ⟨names, (Option.some.inj h).symm⟩
    · cases h

/-- No key begins with a bracket. -/
theorem key?_openBracket (rest : List Token) : key? (.openBracket :: rest) = none := by
  rw [key?.eq_def]
  split
  · rfl
  · rename_i heq
    cases heq
    rfl
  · rename_i heq
    cases heq
    rfl
  · rfl

/-- A line that sets a key has one, and a value. -/
theorem exists_of_addMember? {read? : List Token → Option Item}
    (h : addMember? read? members line = some changed) :
    ∃ path item, key? (line.takeWhile (· != .equals)) = some path ∧
      members.set? item path = some changed := by
  obtain ⟨path, hpath, h⟩ := Option.bind_eq_some_iff.mp h
  obtain ⟨item, -, h⟩ := Option.bind_eq_some_iff.mp h
  exact ⟨path, item, hpath, h⟩

/-- A line that sets a key takes none out. -/
theorem keys_of_addMember? {read? : List Token → Option Item}
    (h : addMember? read? members line = some changed) : members.keys ⊆ changed.keys := by
  obtain ⟨path, item, -, h⟩ := exists_of_addMember? h
  cases path with
  | nil => cases h
  | cons key path => exact (admits_of_set? h).kept

/-- A token that names something ends neither a key nor a line, and opens nothing. -/
theorem ne_of_name? (hname : name? token = some name) {other : Token}
    (hother : name? other = none) : token ≠ other := by
  intro h
  rw [← h, hname] at hother
  cases hother

/-- A line that begins with a name sets a key. -/
theorem addLine?_of_name (hname : name? token = some name) :
    Building.addLine? ⟨members, []⟩ (token :: rest) =
      (addMember? (value? nestingLimit) members (token :: rest)).map (⟨·, []⟩) := by
  have hbracket : token ≠ .openBracket := ne_of_name? hname rfl
  rw [Building.addLine?.eq_def]
  split
  · rename_i heq
    cases heq
  · rename_i heq
    exact absurd (List.cons.inj heq).1 hbracket
  · rw [Members.change?]
    cases addMember? (value? nestingLimit) members (token :: rest) <;> rfl

/-- A line that begins with a bracket opens the table whose names stand between the brackets. -/
theorem exists_of_addLine?_openBracket
    (h : building.addLine? (.openBracket :: rest) = some after) :
    ∃ path, key? rest.dropLast = some path ∧
      building.members.openTable? path = some after.members := by
  obtain ⟨between, hbetween, h⟩ := Option.bind_eq_some_iff.mp h
  obtain ⟨path, hpath, h⟩ := Option.bind_eq_some_iff.mp h
  obtain ⟨members, hmembers, h⟩ := Option.bind_eq_some_iff.mp h
  cases h
  rw [between?] at hbetween
  split_ifs at hbetween
  cases hbetween
  exact ⟨path, hpath, hmembers⟩

/-- A line that begins with a name adds it. Brackets in a row open no table. -/
theorem BeginsWith.admits (hline : BeginsWith name line)
    (h : Building.addLine? ⟨members, []⟩ line = some after) :
    members.Admits name after.members := by
  cases hline with
  | @name token rest hname =>
    have hequals : (token != .equals) = true := bne_iff_ne.mpr (ne_of_name? hname rfl)
    rw [addLine?_of_name hname] at h
    obtain ⟨changed, hchanged, rfl⟩ := Option.map_eq_some_iff.mp h
    obtain ⟨path, item, hpath, hset⟩ := exists_of_addMember? hchanged
    rw [List.takeWhile_cons, if_pos hequals] at hpath
    obtain ⟨names, rfl⟩ := exists_of_key? hname hpath
    exact admits_of_set? hset
  | bracket hline =>
    obtain ⟨path, hpath, hopen⟩ := exists_of_addLine?_openBracket h
    cases hline with
    | @name token rest hname =>
      cases rest with
      | nil => cases hpath
      | cons next rest =>
        rw [List.dropLast_cons_cons] at hpath
        obtain ⟨names, rfl⟩ := exists_of_key? hname hpath
        exact admits_of_openTable? hopen
    | @bracket line hline =>
      cases line with
      | nil => cases hline
      | cons next rest =>
        rw [List.dropLast_cons_cons, key?_openBracket] at hpath
        cases hpath

/-- No line takes a key out. -/
theorem keys_of_addLine? (h : building.addLine? line = some after) :
    building.members.keys ⊆ after.members.keys := by
  cases line with
  | nil =>
    cases h
    exact List.Subset.refl _
  | cons token rest =>
    by_cases hbracket : token = .openBracket
    · subst hbracket
      obtain ⟨path, -, hopen⟩ := exists_of_addLine?_openBracket h
      cases path with
      | nil => cases hopen
      | cons key path => exact (admits_of_openTable? hopen).kept
    · rw [Building.addLine?] at h
      · obtain ⟨members, hmembers, h⟩ := Option.bind_eq_some_iff.mp h
        cases h
        exact keys_of_change? keys_of_addMember? hmembers
      all_goals simp [hbracket]

/-- No lines take a key out. -/
theorem keys_of_addLines? {lines : List (List Token)} (h : building.addLines? lines = some after) :
    building.members.keys ⊆ after.members.keys := by
  induction lines generalizing building with
  | nil =>
    cases h
    exact List.Subset.refl _
  | cons line lines ih =>
    obtain ⟨next, hnext, h⟩ := Option.bind_eq_some_iff.mp h
    exact List.Subset.trans (keys_of_addLine? hnext) (ih h)

end Lines

end DebugSweep.Toml
