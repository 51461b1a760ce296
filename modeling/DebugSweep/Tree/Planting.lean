import DebugSweep.Tree.Resolve

/-!
# Planting entries

A tree is built by planting files, directories and links at paths. Directories on the way are made
as needed, and a file that is there already is overwritten. Permissions are set when everything
has been planted, the last one first.
-/

namespace DebugSweep

/-- What is planted at a path. -/
inductive Seed where
  | file (content : Bytes)
  | directory
  | link (target : Path)
  deriving DecidableEq, Repr

/-- An entry to be planted. -/
structure Planting where
  path : Path
  seed : Seed
  mode : Option Mode
  deriving DecidableEq, Repr

/-- Where a file comes to stand that is planted under a name that leads nowhere: at the name itself,
or where the link of that name points. -/
def Layout.vacancy? (layout : Layout) : (links : Nat) → Address → List Name → Option Address
  | 0, _, _ => none
  | links + 1, place, names =>
    match names.getLast?, layout.lookUp true linkLimit place names.dropLast with
    | some name, .ok directory =>
      match layout.shapeAt? (directory ++ [name]) with
      | some (.link target) => layout.vacancy? links (target.origin directory) target.steps
      | _ => some (directory ++ [name])
    | _, _ => none

namespace Tree

/-- The tree with the directories that lead along the names, starting at an address, and the address
they end at. -/
def makeDirectories (tree : Tree) : Address → List Name → Tree × Address
  | place, [] => (tree, place)
  | place, name :: names =>
    match tree.layout.lookUp true linkLimit place [name] with
    | .ok next => tree.makeDirectories next names
    | .error _ =>
      (tree.insert (place ++ [name]) (.directory .full)).makeDirectories (place ++ [name]) names

/-- The tree with one entry planted, permissions aside. -/
def plant (tree : Tree) (planting : Planting) : Tree :=
  let names := planting.path.steps
  match names.getLast? with
  | none => tree
  | some name =>
    let (tree, place) :=
      tree.makeDirectories (planting.path.origin tree.work) names.dropLast
    match planting.seed with
    | .directory => (tree.makeDirectories place [name]).1
    | .file content =>
      match tree.layout.lookUp true linkLimit place [name] with
      | .ok address => tree.setContent address content
      | .error _ =>
        match tree.layout.vacancy? linkLimit place [name] with
        | some address => tree.insert address (.file .full content)
        | none => tree
    | .link target =>
      match tree.layout.lookUp false linkLimit place [name] with
      | .ok _ => tree
      | .error _ => tree.insert (place ++ [name]) (.link target)

/-- The tree with the entries planted and then their permissions set. -/
def plantAll (tree : Tree) (plantings : List Planting) : Tree :=
  let planted := plantings.foldl plant tree
  plantings.reverse.foldl
    (fun tree planting =>
      let place := planting.path.origin tree.work
      match planting.mode, planted.layout.lookUp true linkLimit place planting.path.steps with
      | some mode, .ok address => tree.setMode address mode
      | _, _ => tree)
    planted

/-- The files and links below the working directory with the names that lead there from it, depth
first with the names of each directory in byte order. -/
def leaves (tree : Tree) : List (Address × Node) :=
  (sortByKey tree.entries).filterMap fun (address, node) =>
    match node with
    | .directory _ => none
    | _ => (tree.work.isPrefixOf? address).map fun names => (names, node)

end Tree

end DebugSweep
