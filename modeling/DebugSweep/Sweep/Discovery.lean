import DebugSweep.Sweep.Walk

/-!
# Discovering source files

The entries of a sweep are the source files that the walk visits and the errors it meets, in the
order of the walk. A root that leads nowhere, or not to a directory, has no entries but an error.
-/

namespace DebugSweep

/-- A source file to be cleaned, or what kept the walk from looking at a place. -/
abbrev Entry := Except SweepError Path

/-- The entry that a visit of the walk is, if it is one. -/
def entryOfVisit? : Except WalkError Path → Option Entry
  | .ok path => if path.isSource then some (.ok path) else none
  | .error error => some (.error (.walk error))

/-- The error of a root that cannot be walked. -/
def rootError? (layout : Layout) (root : Path) : Option SweepError :=
  if !layout.contains root then some (.rootNotFound root)
  else if !layout.isDirectory root then some (.notADirectory root)
  else none

/-- Every entry below a root that can be walked. -/
def entriesBelow (layout : Layout) (root : Path) : List Entry :=
  (Walk.fold (fun _ : List Entry => layout)
    (fun found visit => (entryOfVisit? visit).toList ++ found) root []).reverse

/-- The entries below a root. -/
def discover (layout : Layout) (root : Path) : Except SweepError (List Entry) :=
  match rootError? layout root with
  | some error => .error error
  | none => .ok (entriesBelow layout root)

end DebugSweep
