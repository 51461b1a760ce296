import DebugSweep.Sweep.Error
import DebugSweep.Tree.Resolve

/-!
# Walking a tree

The walk visits every regular file below a root, links followed, the entries of each directory in
the byte order of their names and a directory's content where its name stands. A place that cannot
be looked at is visited as an error, and the walk goes on after it. A link to a directory that is
being walked is such a place, so the walk ends.

The walk is a fold over a state that may change while it runs: it looks at the layout of the state
at the moment it needs it. Since a path that is too long cannot be listed, directories are never
entered deeper than `pathLimit`.
-/

namespace DebugSweep.Walk

/-- A directory that is being walked. -/
structure Ancestor where
  path : Path
  address : Address
  deriving DecidableEq, Repr

variable {σ : Type} (layoutOf : σ → Layout) (visit : σ → Except WalkError Path → σ)

/-- Visit what lies at an entry: the entry itself if it is a file, the content of a directory as
`enter` does it, and for a link what it leads to. -/
def entry (enter : List Ancestor → Path → σ → σ) (ancestors : List Ancestor) (path : Path)
    (shape : Shape) (state : σ) : σ :=
  match shape with
  | .file _ => visit state (.ok path)
  | .directory _ => enter ancestors path state
  | .link _ =>
    match (layoutOf state).entry true path with
    | .error fault => visit state (.error (.entry path fault))
    | .ok (_, .link _) => state
    | .ok (_, .file _) => visit state (.ok path)
    | .ok (address, .directory mode) =>
      if !mode.readable then visit state (.error (.comparison (.system .permissionDenied)))
      else
        match ancestors.find? (·.address = address) with
        | some ancestor => visit state (.error (.loop path ancestor.path))
        | none => enter ancestors path state

/-- Visit the content of a directory, at most `depth` directories deep. -/
def directory : (depth : Nat) → List Ancestor → Path → σ → σ
  | 0, _, path, state => visit state (.error (.entry path (.system .nameTooLong)))
  | depth + 1, ancestors, path, state =>
    match (layoutOf state).listing path with
    | .error fault => visit state (.error (.entry path fault))
    | .ok (address, children) =>
      children.foldl
        (fun state child =>
          entry layoutOf visit (directory depth) (⟨path, address⟩ :: ancestors)
            (path.join child.1) child.2 state)
        state

/-- Visit what lies at a root and below it. -/
def fold (root : Path) (state : σ) : σ :=
  match (layoutOf state).entry false root with
  | .error fault => visit state (.error (.entry root fault))
  | .ok (_, shape) => entry layoutOf visit (directory layoutOf visit pathLimit) [] root shape state

end DebugSweep.Walk
