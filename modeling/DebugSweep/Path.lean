import DebugSweep.Text.Utf8

/-!
# Paths

A path is a list of bytes in which `/` separates names. It is shown as text, but it need not be
UTF-8.
-/

namespace DebugSweep

/-- The name of an entry in a directory. -/
abbrev Name := Bytes

/-- A path as it was written. -/
structure Path where
  bytes : Bytes
  deriving DecidableEq, Repr, Inhabited

/-- The text cut at every byte equal to `separator`. -/
def splitAtByte (separator : UInt8) : Bytes → List Bytes
  | [] => [[]]
  | b :: rest =>
    if b = separator then [] :: splitAtByte separator rest
    else
      match splitAtByte separator rest with
      | [] => [[b]]
      | piece :: pieces => (b :: piece) :: pieces

namespace Path

/-- The path written by a text. -/
def ofString (text : String) : Path := ⟨Utf8.encode text.toList⟩

/-- The path as text, with the replacement character for bytes that are not UTF-8. -/
def display (path : Path) : String := Utf8.lossy path.bytes

instance : ToString Path := ⟨display⟩

/-- The path of an entry of the directory at `path`. -/
def join (path : Path) (name : Name) : Path :=
  match path.bytes.getLast? with
  | none => ⟨name⟩
  | some last => ⟨path.bytes ++ (if last = Byte.slash then name else Byte.slash :: name)⟩

/-- The pieces between slashes, in order; empty ones stand for doubled and outer slashes. -/
def pieces (path : Path) : List Bytes := splitAtByte Byte.slash path.bytes

/-- The name for the directory itself. -/
def here : Name := [Byte.dot]

/-- The name for the directory above. -/
def above : Name := [Byte.dot, Byte.dot]

/-- The last name of the path; a path that ends by going up has none. -/
def fileName? (path : Path) : Option Name :=
  ((path.pieces.filter fun piece => piece != [] && piece != here).getLast?).filter (· != above)

end Path

/-- What follows the last dot of a name, unless that dot is its first byte. -/
def Name.extension? (name : Name) : Option Bytes :=
  let extension := (name.reverse.takeWhile (· != Byte.dot)).reverse
  if extension.length + 1 < List.length name then some extension else none

/-- The extension of the files a sweep looks at. -/
def sourceExtension : String := "dart"

/-- Whether the path names a source file. -/
def Path.isSource (path : Path) : Bool :=
  path.fileName?.bind Name.extension? == some (ascii sourceExtension)

end DebugSweep
