import DebugSweep.Strip.Pass

/-!
# Strategies

The two ways of finding debug-output statements: `scan` reads comments, literals and nested
parentheses and takes whole statements; `legacy` runs the textual passes.
-/

namespace DebugSweep.Strip

/-- How statements are located in a source text. -/
inductive Strategy where
  | scan
  | legacy
  deriving DecidableEq, Repr, Inhabited

/-- The text with every statement that the strategy finds replaced by the marker. -/
def strip : Strategy → Bytes → Stripped
  | .scan, text =>
    let statements := Source.findStatements text
    { text := replaceSpans statements text, removed := statements.length }
  | .legacy, text => runPasses passes text

namespace Strategy

/-- All strategies, in the order they are offered. -/
def all : List Strategy := [.scan, .legacy]

/-- The name a strategy is written by. -/
def name : Strategy → String
  | .scan => "scan"
  | .legacy => "legacy"

/-- The strategy written by exactly this name. -/
def ofName? (name : String) : Option Strategy := all.find? (·.name == name)

/-- The strategy a user asks for; upper-case ASCII letters count as lower-case ones. No character
outside ASCII has a lower-case form in which a strategy's name is written. -/
def parse (text : String) : Except String Strategy :=
  match ofName? (text.map Char.toLower) with
  | some strategy => .ok strategy
  | none => .error s!"Invalid strategy: {text}. Use: scan, legacy"

end Strategy

end DebugSweep.Strip
