import DebugSweep.Tree.Fault

/-!
# File trees

A tree is a file system with a working directory in it: each entry has an address, the names that
lead to it from the top, and a node. What the tree looks like apart from the contents of its files
is its layout; resolving paths, listing directories and walking depend on the layout alone, and
writing a file changes contents only (`Tree.layout_setContent`).
-/

namespace DebugSweep

/-- What the owner of an entry may do with it. -/
structure Mode where
  readable : Bool
  writable : Bool
  /-- Whether what a directory holds can be reached through it. -/
  searchable : Bool
  deriving DecidableEq, Repr

namespace Mode

/-- Everything is allowed. -/
def full : Mode := ⟨true, true, true⟩

/-- The permissions of the owner in the permission bits of an entry. -/
def ofBits (bits : Nat) : Mode := ⟨bits.testBit 8, bits.testBit 7, bits.testBit 6⟩

end Mode

/-- Where an entry stands: the names that lead to it from the top of the tree. -/
abbrev Address := List Name

/-- An entry without what it contains. -/
inductive Shape where
  | file (mode : Mode)
  | directory (mode : Mode)
  | link (target : Path)
  deriving DecidableEq, Repr

/-- An entry. -/
inductive Node where
  | file (mode : Mode) (content : Bytes)
  | directory (mode : Mode)
  | link (target : Path)
  deriving DecidableEq, Repr

/-- The node without its content. -/
def Node.shape : Node → Shape
  | .file mode _ => .file mode
  | .directory mode => .directory mode
  | .link target => .link target

/-- A tree without the contents of its files. -/
structure Layout where
  /-- Where the working directory stands. -/
  work : Address
  shapes : List (Address × Shape)
  deriving DecidableEq, Repr

/-- A file system and the working directory in it. -/
structure Tree where
  /-- Where the working directory stands. -/
  work : Address
  entries : List (Address × Node)
  deriving DecidableEq, Repr

/-- The shape of the entry at an address. -/
def Layout.shapeAt? (layout : Layout) (address : Address) : Option Shape :=
  layout.shapes.lookup address

namespace Tree

/-- A file system with nothing in it but the working directory. -/
def empty : Tree := ⟨[ascii "work"], [([], .directory .full), ([ascii "work"], .directory .full)]⟩

/-- The tree without the contents of its files. -/
def layout (tree : Tree) : Layout :=
  ⟨tree.work, tree.entries.map fun entry => (entry.1, entry.2.shape)⟩

/-- The node at an address. -/
def nodeAt? (tree : Tree) (address : Address) : Option Node := tree.entries.lookup address

/-- The content of the file at an address. -/
def contentAt? (tree : Tree) (address : Address) : Option Bytes :=
  match tree.nodeAt? address with
  | some (.file _ content) => some content
  | _ => none

/-- The tree with a new node at an address where none was. -/
def insert (tree : Tree) (address : Address) (node : Node) : Tree :=
  { tree with entries := tree.entries ++ [(address, node)] }

/-- The tree with the node at an address changed. -/
def modify (tree : Tree) (address : Address) (change : Node → Node) : Tree :=
  { tree with
    entries := tree.entries.map fun entry =>
      if entry.1 = address then (entry.1, change entry.2) else entry }

/-- The tree with new content in the file at an address. -/
def setContent (tree : Tree) (address : Address) (content : Bytes) : Tree :=
  tree.modify address fun
    | .file mode _ => .file mode content
    | node => node

/-- The tree with new permissions on the entry at an address. -/
def setMode (tree : Tree) (address : Address) (mode : Mode) : Tree :=
  tree.modify address fun
    | .file _ content => .file mode content
    | .directory _ => .directory mode
    | .link target => .link target

/-- A layout knows the shape of every node. -/
theorem shapeAt?_layout (tree : Tree) (address : Address) :
    tree.layout.shapeAt? address = (tree.nodeAt? address).map Node.shape := by
  simp only [Layout.shapeAt?, layout, nodeAt?]
  induction tree.entries with
  | nil => rfl
  | cons entry entries ih =>
    obtain ⟨place, node⟩ := entry
    rw [List.map_cons, List.lookup_cons, List.lookup_cons]
    cases address == place
    · exact ih
    · rfl

/-- New content leaves the layout as it was. -/
theorem layout_setContent (tree : Tree) (address : Address) (content : Bytes) :
    (tree.setContent address content).layout = tree.layout := by
  simp only [layout, setContent, modify, List.map_map, Layout.mk.injEq, true_and]
  refine List.map_congr_left fun entry _ => ?_
  by_cases h : entry.1 = address
  · cases hn : entry.2 <;> simp [h, hn, Node.shape]
  · simp [h]

end Tree

/-- Put an entry where its name belongs, after others of the same name. -/
def insertByKey {α : Type} (entry : List Name × α) :
    List (List Name × α) → List (List Name × α)
  | [] => [entry]
  | other :: others =>
    if entry.1 < other.1 then entry :: other :: others else other :: insertByKey entry others

/-- The entries in the byte order of their names; where one list of names begins the other, the
shorter comes first. -/
def sortByKey {α : Type} : List (List Name × α) → List (List Name × α)
  | [] => []
  | entry :: entries => insertByKey entry (sortByKey entries)

end DebugSweep
