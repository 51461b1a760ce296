import DebugSweep.Tree.Basic

/-!
# Resolving paths

A path is read name by name, from the top of the tree if it is absolute and else from the working
directory. Every directory in which a further name is looked up has to be searchable; a link is
replaced by its target, at most `linkLimit` times on one path, which is read from the top or from
the directory that holds the link. Above the top is the top. A slash at the end asks for a
directory.
-/

namespace DebugSweep

/-- How many links may be followed on one path. -/
def linkLimit : Nat := 40

/-- Paths of this many bytes and more are refused. -/
def pathLimit : Nat := 4096

/-- The longest name that can be looked up. -/
def nameLimit : Nat := 255

/-- The names of a path to be looked up in turn; an empty one at the end asks for a directory. -/
def Path.steps (path : Path) : List Name :=
  path.pieces.dropLast.filter (· != []) ++ path.pieces.getLast?.toList

/-- Whether the path starts from the top. -/
def Path.isAbsolute (path : Path) : Bool := path.bytes.head? == some Byte.slash

/-- Where the names of a path begin that is read in a place: there, or at the top. -/
def Path.origin (path : Path) (place : Address) : Address :=
  if path.isAbsolute then [] else place

namespace Layout

/-- Look up names one after the other, starting in the entry at an address. At a link that is to be
followed, `follow` goes on from the directory that holds it with the target and the names left. -/
def descend (layout : Layout) (followLast : Bool)
    (follow : Address → Path → List Name → Except Errno Address) :
    Address → List Name → Except Errno Address
  | place, [] => .ok place
  | place, name :: names =>
    match layout.shapeAt? place with
    | some (.directory mode) =>
      if name = [] then layout.descend followLast follow place names
      else if !mode.searchable then .error .permissionDenied
      else if name = Path.here then layout.descend followLast follow place names
      else if name = Path.above then layout.descend followLast follow place.dropLast names
      else if nameLimit < name.length then .error .nameTooLong
      else
        match layout.shapeAt? (place ++ [name]) with
        | none => .error .noEntry
        | some (.link target) =>
          if names = [] ∧ !followLast then .ok (place ++ [name]) else follow place target names
        | some _ => layout.descend followLast follow (place ++ [name]) names
    | _ => .error .notDirectory

/-- Look up names with at most `links` links followed. -/
def lookUp (layout : Layout) (followLast : Bool) : (links : Nat) → Address → List Name →
    Except Errno Address
  | 0 => layout.descend followLast fun _ _ _ => .error .tooManyLinks
  | links + 1 => layout.descend followLast fun place target names =>
      layout.lookUp followLast links (target.origin place) (target.steps ++ names)

/-- The address that a path leads to. A link at its end is followed on demand. -/
def address (layout : Layout) (followLast : Bool) (path : Path) : Except Fault Address :=
  if 0 ∈ path.bytes then .error .zeroByte
  else if pathLimit ≤ path.bytes.length then .error (.system .nameTooLong)
  else if path.bytes = [] then .error (.system .noEntry)
  else (layout.lookUp followLast linkLimit (path.origin layout.work) path.steps).mapError .system

/-- The entry a path leads to, with its address. -/
def entry (layout : Layout) (followLast : Bool) (path : Path) :
    Except Fault (Address × Shape) := do
  let address ← layout.address followLast path
  match layout.shapeAt? address with
  | some shape => .ok (address, shape)
  | none => .error (.system .noEntry)

/-- Whether the path leads anywhere, its links followed. -/
def contains (layout : Layout) (path : Path) : Bool := (layout.entry true path).isOk

/-- Whether the path leads to a directory, its links followed. -/
def isDirectory (layout : Layout) (path : Path) : Bool :=
  match layout.entry true path with
  | .ok (_, .directory _) => true
  | _ => false

/-- What a directory at an address holds, in the byte order of the names. -/
def children (layout : Layout) (directory : Address) : List (Name × Shape) :=
  (sortByKey (layout.shapes.filterMap fun (place, shape) =>
      place.getLast?.bind fun name =>
        if place.dropLast = directory then some ([name], (name, shape)) else none)).map (·.2)

/-- The directory a path leads to and what it holds. -/
def listing (layout : Layout) (path : Path) : Except Fault (Address × List (Name × Shape)) := do
  match ← layout.entry true path with
  | (address, .directory mode) =>
    if mode.readable then .ok (address, layout.children address)
    else .error (.system .permissionDenied)
  | _ => .error (.system .notDirectory)

end Layout

end DebugSweep
