import DebugSweep.Source.Region

/-!
# Debug-output statements

A debug-output statement is a call of one of `callNames` that stands where a statement can begin
and whose argument list is followed, blanks aside, by the terminator. A statement can begin at the
start of the text and after `;`, `{` or `}`, with only blanks and comments between.

`findStatements` reports the statements of a text in order. A call whose argument list is still
open at the end of the text ends the search, since nothing after it can be told apart from its
arguments; a call that is not a statement is searched for statements inside its arguments.
-/

namespace DebugSweep.Source

/-- A range of a text by byte offsets, the end excluded. -/
structure Span where
  start : Nat
  stop : Nat
  deriving DecidableEq, Repr

/-- The names of the calls that write debug output. -/
def callNames : List Bytes := [ascii "print", ascii "debugPrint"]

/-- The byte that ends a statement. -/
abbrev terminator : UInt8 := Byte.semicolon

/-- Whether a statement can begin after this byte. -/
def isBoundary (b : UInt8) : Bool := b == terminator || b == Byte.openBrace || b == Byte.closeBrace

/-- The length of the call name and parenthesis at the head of the text, if one stands there. -/
def callOpening? (text : Bytes) : Option Nat :=
  (callNames.find? fun name => (name ++ [Byte.openParen]).isPrefixOf text).map (·.length + 1)

/-- What stands at a place where a statement can begin. -/
inductive Candidate where
  /-- A debug-output statement of this length, its terminator included. -/
  | statement (length : Nat)
  /-- A debug-output call that is still open at the end of the text. -/
  | unclosed
  /-- Anything else, a debug-output call inside an expression included. -/
  | other
  deriving DecidableEq, Repr

/-- What stands at the head of the text, where a statement can begin. -/
def candidate (text : Bytes) : Candidate :=
  match callOpening? text with
  | none => .other
  | some opening =>
    match closeLength? opening 0 [.arguments 0] false (text.drop opening) with
    | none => .unclosed
    | some closed =>
      let blanks := ((text.drop closed).takeWhile Byte.isBlank).length
      if (text.drop (closed + blanks)).head? = some terminator then .statement (closed + blanks + 1)
      else .other

/-- The statements of a text that begins at offset `position`, where the first `skip` bytes belong
to what was found before, `atStart` says that a statement can begin here, and `inWord` that an
identifier byte stands directly before. -/
def statementsFrom (position skip : Nat) (atStart inWord : Bool) : Bytes → List Span
  | [] => []
  | b :: rest =>
    match skip with
    | skip + 1 => statementsFrom (position + 1) skip atStart (Byte.isWord b) rest
    | 0 =>
      match triviaLength? inWord (b :: rest) with
      | some length =>
        statementsFrom (position + 1) (length - 1) (atStart && b == Byte.slash) (Byte.isWord b) rest
      | none =>
        match if atStart then candidate (b :: rest) else .other with
        | .statement length =>
          ⟨position, position + length⟩ ::
            statementsFrom (position + 1) (length - 1) true (Byte.isWord b) rest
        | .unclosed => []
        | .other =>
          statementsFrom (position + 1) 0 (if Byte.isBlank b then atStart else isBoundary b)
            (Byte.isWord b) rest

/-- The debug-output statements of a text, in order. -/
def findStatements (text : Bytes) : List Span := statementsFrom 0 0 true false text

end DebugSweep.Source
