import DebugSweep.CommandLine.Program

/-!
# The command line

The outermost layer: it takes a picture of the file system as a tree, runs the program on the
picture, writes back the files whose content changed, and prints what the program left behind. All
decisions are made by `CommandLine.run`.

The picture holds what is in the working directory and at the places that arguments name, with the
directories that lead there, as far as the names are UTF-8. Other places are not in it: what leads
to them leads nowhere.
-/

namespace DebugSweep.CommandLine

/-- The variables of the environment that the program looks at. -/
def environmentNames : List String := ["RUST_LOG", "CLICOLOR_FORCE"]

/-- The name of an entry as it stands in an address. -/
def entryName (name : String) : Name := Utf8.encode name.toList

/-- The names that lead to a real place from the top. -/
def placeNames (place : String) : List String := (place.splitOn "/").filter (· != "")

/-- The address of a real place. -/
def placeAddress (place : String) : Address := (placeNames place).map entryName

/-- The entry at a real place. -/
def entryAt (place : String) : IO.FS.DirEntry :=
  let names := placeNames place
  ⟨"/" ++ "/".intercalate names.dropLast, names.getLast?.getD "."⟩

/-- A target that leads nowhere: there is no entry of this name. -/
def nowhere : Path := ⟨[0]⟩

/-- The real place that a path leads to. -/
def realPlace? (path : String) : IO (Option String) := do
  try
    let place ← IO.FS.realPath path
    return some place.toString
  catch _ => return none

/-- Whether an action succeeds. -/
def succeeds {α : Type} (action : IO α) : IO Bool := do
  try
    let _ ← action
    return true
  catch _ => return false

/-- The picture of the entry at an address and of everything below it. -/
partial def picture (address : Address) (entry : IO.FS.DirEntry) : IO (List (Address × Node)) := do
  match (← entry.path.symlinkMetadata).type with
  | .symlink =>
    let place ← realPlace? entry.path.toString
    return [(address, .link ((place.map Path.ofString).getD nowhere))]
  | .dir =>
    try
      let entries ← entry.path.readDir
      let below ← entries.toList.mapM fun entry =>
        picture (address ++ [entryName entry.fileName]) entry
      return (address, .directory .full) :: below.flatten
    catch _ => return [(address, .directory { Mode.full with readable := false })]
  | .file =>
    let writable ← succeeds (IO.FS.Handle.mk entry.path .append)
    try
      let content ← IO.FS.readBinFile entry.path
      return [(address, .file ⟨true, writable, false⟩ content.toList)]
    catch _ => return [(address, .file ⟨false, writable, false⟩ [])]
  | .other => return []

/-- The directories above an address. -/
def directoriesAbove (address : Address) : List (Address × Node) :=
  (List.range address.length).map fun depth => (address.take depth, .directory .full)

/-- Addresses without those that are below another one. -/
def outermost (addresses : List Address) : List Address :=
  (addresses.filter fun address =>
    addresses.all fun other => other == address || !other.isPrefixOf address).eraseDups

/-- The picture of the working directory and of the places that arguments name. -/
def workingTree (arguments : List String) : IO Tree := do
  let work := (← IO.FS.realPath (← IO.currentDir)).toString
  let places := work :: (← arguments.filterMapM fun argument => realPlace? argument)
  let outer := outermost (places.map placeAddress)
  let pictures ← (places.filter fun place => placeAddress place ∈ outer).eraseDups.mapM fun place =>
    picture (placeAddress place) (entryAt place)
  return ⟨placeAddress work, (outer.flatMap directoriesAbove).eraseDups ++ pictures.flatten⟩

/-- Write back the files whose content changed. -/
def writeBack (before after : Tree) : IO Unit := do
  for (old, new) in before.entries.zip after.entries do
    match new with
    | (address, .file _ content) =>
      if old != new then
        let path := "/" ++ "/".intercalate (address.map Utf8.lossy)
        IO.FS.writeBinFile path (ByteArray.mk content.toArray)
    | _ => pure ()

/-- Print a text and end its last line. -/
def printErrors (text : String) : IO Unit := do
  unless text.isEmpty do
    IO.eprint text
    unless text.endsWith "\n" do IO.eprint "\n"

end DebugSweep.CommandLine

open DebugSweep CommandLine in
/-- Run the program in the working directory. -/
def main (arguments : List String) : IO UInt32 := do
  let environment ← environmentNames.filterMapM fun name => do
    return (← IO.getEnv name).map fun value => (name, value)
  let before ← workingTree arguments
  let result := run environment (arguments.map entryName) before
  writeBack before result.tree
  IO.print result.output
  printErrors result.errors
  return UInt32.ofNat result.exit
