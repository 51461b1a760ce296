import DebugSweep.Sweep.Session

/-!
# Which records are shown

A filter is a list of directives, each a level for the records whose target begins with a name. The
directive with the longest such name decides; a directive without a name speaks for all records,
and a record for which no directive speaks is not shown.
-/

namespace DebugSweep.CommandLine

/-- The name under which the records of a topic are shown. -/
def target : Topic → String
  | .cleaning => "printstrip::cleaner"
  | .configuration => "printstrip::config"

/-- A level for the records whose target begins with a name. -/
structure Directive where
  /-- The empty name speaks for all records. -/
  name : String
  /-- How deep a record may stand. -/
  depth : Nat
  deriving DecidableEq, Repr

/-- The depth of a level that is written by its name in any case; `off` shows nothing. -/
def depthOf? (text : String) : Option Nat :=
  let text := text.map Char.toUpper
  if text = "OFF" then some 0
  else
    ([Level.error, .warn, .info, .debug, .trace].find? (·.name == text)).map Level.depth

/-- The text without blanks on either side. -/
def trimmed (text : List Char) : List Char :=
  ((text.dropWhile Char.isWhitespace).reverse.dropWhile Char.isWhitespace).reverse

/-- The text cut at every separator. -/
def splitAtChar (separator : Char) : List Char → List (List Char)
  | [] => [[]]
  | c :: rest =>
    if c = separator then [] :: splitAtChar separator rest
    else
      match splitAtChar separator rest with
      | [] => [[c]]
      | piece :: pieces => (c :: piece) :: pieces

/-- The directive that a text writes: a level, a name, or a name and a level. -/
def directive? (text : List Char) : Option Directive :=
  if text = [] then none
  else
    match splitAtChar '=' text with
    | [word] =>
      match depthOf? (String.ofList word) with
      | some depth => some ⟨"", depth⟩
      | none => some ⟨String.ofList word, Level.trace.depth⟩
    | [name, level] =>
      if trimmed level = [] then some ⟨String.ofList name, Level.trace.depth⟩
      else (depthOf? (String.ofList (trimmed level))).map (⟨String.ofList name, ·⟩)
    | _ => none

/-- The directives that a text writes, between which commas stand; one for the same name replaces
the one before. Without any, errors alone are shown. -/
def directives (text : String) : List Directive :=
  let written := (splitAtChar ',' text.toList).filterMap fun piece => directive? (trimmed piece)
  if written.isEmpty then [⟨"", Level.error.depth⟩]
  else
    written.foldl
      (fun kept directive => kept.filter (·.name != directive.name) ++ [directive])
      []

/-- The directive with the longest name among those that speak for a target. -/
def deciding? (directives : List Directive) (target : String) : Option Directive :=
  directives.foldl
    (fun best directive =>
      if !directive.name.toList.isPrefixOf target.toList then best
      else
        match best with
        | some longest =>
          if longest.name.length ≤ directive.name.length then some directive else best
        | none => some directive)
    none

/-- Whether a record is shown. -/
def shows (directives : List Directive) (record : LogRecord) : Bool :=
  match deciding? directives (target record.topic) with
  | some directive => record.level.depth ≤ directive.depth
  | none => false

/-- The record as it is shown. The lines of its text after the first are indented. -/
def recordLine (record : LogRecord) : String :=
  let name := record.level.name
  let level := name ++ String.ofList (List.replicate (5 - name.length) ' ')
  let text := record.text.toList.flatMap fun c => if c = '\n' then "\n    ".toList else [c]
  s!"[{level} {target record.topic}] {String.ofList text}\n"

end DebugSweep.CommandLine
