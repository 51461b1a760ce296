import DebugSweep.Tree.Access

/-!
# Sessions

What a run works on: the tree it reads and writes, and the records it has logged so far.
-/

namespace DebugSweep

/-- How much a record matters. -/
inductive Level where
  | error
  | warn
  | info
  | debug
  | trace
  deriving DecidableEq, Repr

namespace Level

/-- The name a level is written by. -/
def name : Level → String
  | .error => "ERROR"
  | .warn => "WARN"
  | .info => "INFO"
  | .debug => "DEBUG"
  | .trace => "TRACE"

/-- How far down a level stands: the greater, the more detail. -/
def depth : Level → Nat
  | .error => 1
  | .warn => 2
  | .info => 3
  | .debug => 4
  | .trace => 5

end Level

/-- What a record is about. -/
inductive Topic where
  | cleaning
  | configuration
  deriving DecidableEq, Repr

/-- A logged record. -/
structure LogRecord where
  level : Level
  topic : Topic
  text : String
  deriving DecidableEq, Repr

/-- A tree and the records logged while working on it, the oldest first. -/
structure Session where
  tree : Tree
  log : List LogRecord
  deriving DecidableEq, Repr

namespace Session

/-- A session on a tree with nothing logged. -/
def start (tree : Tree) : Session := ⟨tree, []⟩

/-- The session with one more record. -/
def note (session : Session) (level : Level) (topic : Topic) (text : String) : Session :=
  { session with log := session.log ++ [⟨level, topic, text⟩] }

end Session

end DebugSweep
