import DebugSweep.Proofs.Tree.Names

/-!
# Absolute and relative paths

An absolute path leads to the same place from every working directory
(`Layout.address_of_isAbsolute`). A relative path leads where the absolute path does that names the
working directory first, if the directories above it may be searched (`Layout.address_below`).
-/

namespace DebugSweep

/-- The absolute path that names a place first and then goes on as the path does. -/
def Path.below (path : Path) (place : Address) : Path :=
  ⟨Byte.slash :: (place.flatMap (· ++ [Byte.slash]) ++ path.bytes)⟩

/-- The names of the place are looked up before those of the path. -/
theorem Path.steps_below (path : Path) {place : Address} (h : ∀ name ∈ place, Name.Proper name) :
    (path.below place).steps = place ++ path.steps := by
  have hbelow : (path.below place).pieces = [] :: (place ++ path.pieces) := by
    rw [pieces, below, splitAtByte, if_pos rfl,
      splitAtByte_flatMap fun name hname => (h name hname).slash_not_mem]
    rfl
  have hkept : place.filter (· != []) = place :=
    List.filter_eq_self.mpr fun name hname => by simpa using (h name hname).ne_nil
  obtain ⟨pieces, last, hlast⟩ :=
    (List.eq_nil_or_concat' path.pieces).resolve_left (splitAtByte_ne_nil path.bytes)
  rw [steps, steps, hbelow, hlast, ← List.append_assoc, ← List.cons_append, List.dropLast_concat,
    List.dropLast_concat, List.getLast?_concat, List.getLast?_concat,
    List.filter_cons_of_neg (by simp), List.filter_append, hkept, List.append_assoc]

namespace Layout

variable {layout : Layout} {followLast : Bool} {path : Path}

/-- Names that lead from a place through directories, each of which may be searched for the next. -/
inductive OpenWay (layout : Layout) : Address → List Name → Prop
  | here (place : Address) : OpenWay layout place []
  | down {place : Address} {name : Name} {names : List Name} {above mode : Mode}
      (habove : layout.shapeAt? place = some (.directory above)) (hsearch : above.searchable = true)
      (hname : Name.Proper name) (hlength : List.length name ≤ nameLimit)
      (hbelow : layout.shapeAt? (place ++ [name]) = some (.directory mode))
      (hway : OpenWay layout (place ++ [name]) names) : OpenWay layout place (name :: names)

namespace OpenWay

variable {place : Address} {names : List Name}

theorem proper (h : layout.OpenWay place names) : ∀ name ∈ names, Name.Proper name := by
  induction h with
  | here place => exact List.forall_mem_nil _
  | down habove hsearch hname hlength hbelow hway ih => exact List.forall_mem_cons.mpr ⟨hname, ih⟩

/-- The directories are gone through one after the other. -/
theorem descend_append {follow : Address → Path → List Name → Except Errno Address}
    (h : layout.OpenWay place names) (rest : List Name) :
    layout.descend followLast follow place (names ++ rest) =
      layout.descend followLast follow (place ++ names) rest := by
  induction h with
  | here place => rw [List.nil_append, List.append_nil]
  | @down place name names above mode habove hsearch hname hlength hbelow hway ih =>
    rw [List.cons_append, descend, habove]
    simp only [if_neg hname.ne_nil, hsearch, Bool.not_true, Bool.false_eq_true, if_false,
      if_neg hname.ne_here, if_neg hname.ne_above, if_neg (Nat.not_lt.mpr hlength), hbelow]
    rw [ih, List.append_assoc, List.singleton_append]

end OpenWay

theorem descend_with_work (work : Address)
    (follow : Address → Path → List Name → Except Errno Address) (place : Address)
    (names : List Name) :
    ({ layout with work } : Layout).descend followLast follow place names =
      layout.descend followLast follow place names := by
  have hshape : ({ layout with work } : Layout).shapeAt? = layout.shapeAt? := rfl
  induction names generalizing place with
  | nil => rfl
  | cons name names ih => simp only [descend, hshape, ih]

/-- Where names lead has nothing to do with the working directory. -/
theorem lookUp_with_work (work : Address) (links : Nat) (place : Address) (names : List Name) :
    ({ layout with work } : Layout).lookUp followLast links place names =
      layout.lookUp followLast links place names := by
  induction links generalizing place names with
  | zero => exact descend_with_work work _ place names
  | succ links ih => simp only [lookUp, ih, descend_with_work]

/-- An absolute path leads to the same place from every working directory. -/
theorem address_of_isAbsolute (h : path.isAbsolute = true) (work : Address) :
    ({ layout with work } : Layout).address followLast path = layout.address followLast path := by
  simp only [address, Path.origin, h, if_true, lookUp_with_work]

/-- A relative path leads where the absolute path does that names the working directory first. -/
theorem address_below (hway : layout.OpenWay [] layout.work) (hrelative : path.isAbsolute = false)
    (hempty : path.bytes ≠ []) (hzero : 0 ∉ (path.below layout.work).bytes)
    (hlength : (path.below layout.work).bytes.length < pathLimit) :
    layout.address followLast (path.below layout.work) = layout.address followLast path := by
  have hbytes : path.bytes <:+ (path.below layout.work).bytes :=
    (List.suffix_append _ _).trans (List.suffix_cons _ _)
  have hlookUp : layout.lookUp followLast linkLimit [] (layout.work ++ path.steps) =
      layout.lookUp followLast linkLimit layout.work path.steps := hway.descend_append path.steps
  have horigin : path.origin layout.work = layout.work := by
    rw [Path.origin, hrelative]
    rfl
  have htop : (path.below layout.work).origin layout.work = [] := rfl
  have hbelow : (path.below layout.work).bytes ≠ [] := List.cons_ne_nil _ _
  rw [address, address, if_neg hzero, if_neg (Nat.not_le.mpr hlength), if_neg hbelow,
    if_neg fun hmem => hzero (hbytes.mem hmem),
    if_neg (Nat.not_le.mpr (Nat.lt_of_le_of_lt hbytes.length_le hlength)), if_neg hempty, htop,
    horigin, path.steps_below hway.proper, hlookUp]

/-- The file of a directory two names below the top: by its name, from the top, through a link to a
place given from the top, and after more steps up than there are names. -/
example :
    let layout : Layout := ⟨[ascii "home", ascii "me"], [
      ([], .directory .full),
      ([ascii "home"], .directory .full),
      ([ascii "home", ascii "me"], .directory .full),
      ([ascii "home", ascii "me", ascii "a.dart"], .file .full),
      ([ascii "home", ascii "me", ascii "up"], .link ⟨ascii "/home"⟩)]⟩
    ["a.dart", "/home/me/a.dart", "up/me/a.dart", "../../../../home/me/a.dart"].map (fun path =>
      layout.address true ⟨ascii path⟩) =
        List.replicate 4 (.ok [ascii "home", ascii "me", ascii "a.dart"]) := by
  decide +kernel

end Layout

end DebugSweep
