import DebugSweep.Sweep.Session
import DebugSweep.Strip.Strategy
import DebugSweep.Toml.Document

/-!
# Configuration

The settings of a sweep come from an optional file in the working directory. A setting that the
file leaves out has its default; a setting of another name, or of the wrong kind, makes the whole
file invalid.
-/

namespace DebugSweep

open Strip (Strategy)

/-- The settings of a sweep. -/
structure Config where
  root : Path
  /-- The part of a path that marks the logging utility. -/
  exclude : String
  strategy : Strategy
  deriving DecidableEq, Repr

namespace Config

/-- The file looked for in the working directory. -/
def fileName : String := ".printstrip.toml"

/-- The root that is swept unless another is set. -/
def standardRoot : String := "ruwaq_jawi/lib/core"

/-- The part of a path that marks the logging utility unless another is set. -/
def loggerName : String := "app_logger.dart"

/-- The settings where there is no file. -/
def standard : Config := ⟨.ofString standardRoot, loggerName, .scan⟩

/-- Whether a value holds nothing. -/
def isEmpty : Toml.Item → Bool
  | .emptyArray | .table _ [] => true
  | _ => false

/-- The strategy that a value names: a string, or a table whose only key holds nothing. -/
def strategyOf? : Toml.Item → Option Strategy
  | .text name => Strategy.ofName? (String.ofList name)
  | .table _ [(name, item)] =>
    if isEmpty item then Strategy.ofName? (String.ofList name) else none
  | _ => none

/-- The configuration with one more setting. -/
def set? (config : Config) (key : List Char) (item : Toml.Item) : Option Config :=
  if key = "root".toList then
    match item with
    | .text value => some { config with root := ⟨Utf8.encode value⟩ }
    | _ => none
  else if key = "exclude".toList then
    match item with
    | .text value => some { config with exclude := String.ofList value }
    | _ => none
  else if key = "strategy".toList then
    (strategyOf? item).map fun strategy => { config with strategy }
  else none

/-- The configuration with all the settings of a table. -/
def setAll? (config : Config) : Toml.Members → Option Config
  | [] => some config
  | (key, item) :: members => do (← config.set? key item).setAll? members

/-- The configuration that a text describes. -/
def ofText? (text : List Char) : Option Config := do
  standard.setAll? (← Toml.document? text)

end Config

/-- Why no configuration could be loaded. -/
inductive ConfigError where
  | unreadable (path : Path) (fault : Fault)
  | invalid (path : Path)
  deriving DecidableEq, Repr

/-- What failed, without its cause. -/
def ConfigError.message : ConfigError → String
  | .unreadable path _ => s!"failed to read config {path}"
  | .invalid path => s!"invalid config {path}"

namespace Config

/-- The text of a file. -/
def readText (tree : Tree) (path : Path) : Except Fault (List Char) := do
  match Utf8.decode? (← tree.read path) with
  | some text => .ok text
  | none => .error .notText

/-- Load the configuration at a path; without a file there the settings have their defaults. -/
def load (session : Session) (path : Path) : Session × Except ConfigError Config :=
  if !session.tree.layout.contains path then
    (session.note .debug .configuration s!"no config at {path}, using defaults", .ok standard)
  else
    match readText session.tree path with
    | .error fault => (session, .error (.unreadable path fault))
    | .ok text =>
      match ofText? text with
      | none => (session, .error (.invalid path))
      | some config =>
        (session.note .debug .configuration s!"loaded config from {path}", .ok config)

end Config

end DebugSweep
