import DebugSweep.Tree.Resolve

/-!
# Reading and writing files

A file is read and written through the path that leads to it, links followed. Reading needs the
permission to read, writing the permission to write; a refused write leaves the tree as it was.
-/

namespace DebugSweep.Tree

/-- The content of the file a path leads to. -/
def read (tree : Tree) (path : Path) : Except Fault Bytes := do
  let address ← tree.layout.address true path
  match tree.nodeAt? address with
  | some (.file mode content) =>
    if mode.readable then .ok content else .error (.system .permissionDenied)
  | some (.directory mode) =>
    .error (.system (if mode.readable then .isDirectory else .permissionDenied))
  | _ => .error (.system .noEntry)

/-- The tree with new content in the file a path leads to. -/
def write (tree : Tree) (path : Path) (content : Bytes) : Except Fault Tree := do
  let address ← tree.layout.address true path
  match tree.nodeAt? address with
  | some (.file mode _) =>
    if mode.writable then .ok (tree.setContent address content)
    else .error (.system .permissionDenied)
  | some (.directory _) => .error (.system .isDirectory)
  | _ => .error (.system .noEntry)

end DebugSweep.Tree
