import DebugSweep.Cursor

/-!
# The scan by offsets without its guards

The same scan as in `Cursor`, without the check that it comes forward: a loop goes on from wherever
another lexer has left it, and the lexers call each other as they are written. Nothing here says
that this ever ends, so each function is told how many calls deep it may go. A computation that needs
more is still going on; one that would go on for ever is so at every depth.
-/

namespace DebugSweep.Cursor

/-- A computation that may go wrong, and that may still be going on. -/
abbrev Running := ExceptT Misstep Option

namespace Running

variable {α : Type}

/-- What has ended, with this outcome. -/
def ended (outcome : Except Misstep α) : Running α := .mk (some outcome)

/-- What is still going on. -/
def unfinished : Running α := .mk none

end Running

namespace Unguarded

open Source
open Running (ended unfinished)

/-- Where a block comment ends, with `nested` comments open at the offset. -/
def blockCommentEnd (depth : Nat) (text : Bytes) (nested i : Nat) : Running Nat :=
  match depth with
  | 0 => unfinished
  | depth + 1 =>
    if i < text.length then do
      let b ← ended (byteAt text i)
      if b = Byte.slash ∧ text[i + 1]? = some Byte.star then
        blockCommentEnd depth text (nested + 1) (i + 2)
      else if b = Byte.star ∧ text[i + 1]? = some Byte.slash then
        let nested ← ended (countDown nested)
        if nested = 0 then return i + 2 else blockCommentEnd depth text nested (i + 2)
      else blockCommentEnd depth text nested (i + 1)
    else return text.length

mutual

/-- The offset behind the comment or literal that begins at an offset, if one does. -/
def triviaEnd (depth : Nat) (text : Bytes) (i : Nat) : Running (Option Nat) :=
  match depth with
  | 0 => unfinished
  | depth + 1 => do
    let b ← ended (byteAt text i)
    if b = Byte.slash ∧ text[i + 1]? = some Byte.slash then
      return some (← ended (lineEnd text i))
    else if b = Byte.slash ∧ text[i + 1]? = some Byte.star then
      return some (← blockCommentEnd depth text 1 (i + 2))
    else if Byte.isQuote b then
      return some (← literalEnd depth false text i)
    else if b = Byte.letterR ∧ text[i + 1]?.any Byte.isQuote then
      if ← ended (isAfterWord text i) then return none
      else return some (← literalEnd depth true text (i + 1))
    else return none

/-- The offset behind the literal whose quote stands at an offset. -/
def literalEnd (depth : Nat) (raw : Bool) (text : Bytes) (i : Nat) : Running Nat :=
  match depth with
  | 0 => unfinished
  | depth + 1 => do
    let quote ← ended (byteAt text i)
    let triple := isTriple text i quote
    literalEndFrom depth quote triple raw text (i + if triple then 3 else 1)

/-- The offset behind the literal in which an offset lies. -/
def literalEndFrom (depth : Nat) (quote : UInt8) (triple raw : Bool) (text : Bytes) (i : Nat) :
    Running Nat :=
  match depth with
  | 0 => unfinished
  | depth + 1 =>
    if i < text.length then do
      let b ← ended (byteAt text i)
      if b = Byte.backslash ∧ raw = false then
        literalEndFrom depth quote triple raw text (i + 2)
      else if b = Byte.dollar ∧ raw = false ∧ text[i + 1]? = some Byte.openBrace then
        literalEndFrom depth quote triple raw text (← interpolationEnd depth 1 text (i + 2))
      else if b = quote ∧ triple = false then return i + 1
      else if b = quote ∧ isTriple text i quote then return i + 3
      else if b = Byte.newline ∧ triple = false then return i + 1
      else literalEndFrom depth quote triple raw text (i + 1)
    else return text.length

/-- The offset behind the interpolation in which an offset lies, with `nested` braces open there. -/
def interpolationEnd (depth nested : Nat) (text : Bytes) (i : Nat) : Running Nat :=
  match depth with
  | 0 => unfinished
  | depth + 1 =>
    if i < text.length then do
      match ← triviaEnd depth text i with
      | some next => interpolationEnd depth nested text next
      | none =>
        let b ← ended (byteAt text i)
        if b = Byte.openBrace then interpolationEnd depth (nested + 1) text (i + 1)
        else if b = Byte.closeBrace then
          let nested ← ended (countDown nested)
          if nested = 0 then return i + 1 else interpolationEnd depth nested text (i + 1)
        else interpolationEnd depth nested text (i + 1)
    else return text.length

end

/-- The offset of the parenthesis that closes an argument list, if one does, with `nested`
parentheses open at the offset. -/
def closingParen? (depth nested : Nat) (text : Bytes) (i : Nat) : Running (Option Nat) :=
  match depth with
  | 0 => unfinished
  | depth + 1 =>
    if i < text.length then do
      match ← triviaEnd depth text i with
      | some next => closingParen? depth nested text next
      | none =>
        let b ← ended (byteAt text i)
        if b = Byte.openParen then closingParen? depth (nested + 1) text (i + 1)
        else if b = Byte.closeParen then
          let nested ← ended (countDown nested)
          if nested = 0 then return some i else closingParen? depth nested text (i + 1)
        else closingParen? depth nested text (i + 1)
    else return none

/-- The offset of the first byte from `i` on that is no blank, or the end of the text. -/
def blanksEnd (depth : Nat) (text : Bytes) (i : Nat) : Running Nat :=
  match depth with
  | 0 => unfinished
  | depth + 1 =>
    if i < text.length then do
      if Byte.isBlank (← ended (byteAt text i)) then blanksEnd depth text (i + 1) else return i
    else return i

/-- How the call ends whose parenthesis stands at an offset. -/
def callEnd (depth : Nat) (text : Bytes) (i : Nat) : Running CallEnd := do
  match ← closingParen? depth 0 text i with
  | none => return .unclosed
  | some close =>
    let next ← blanksEnd depth text (close + 1)
    if text[next]? = some terminator then return .statement (next + 1) else return .expression

/-- The statements from an offset on; `atStart` says that one can begin there. -/
def statementsFrom (depth : Nat) (atStart : Bool) (text : Bytes) (i : Nat) :
    Running (List Span) :=
  match depth with
  | 0 => unfinished
  | depth + 1 =>
    if i < text.length then do
      let b ← ended (byteAt text i)
      match ← triviaEnd depth text i with
      | some next => statementsFrom depth (atStart && b == Byte.slash) text next
      | none =>
        if Byte.isWordStart b then
          let stop ← ended (wordEnd text i)
          let name ← ended (slice text i stop)
          if atStart ∧ callNames.contains name ∧ text[stop]? = some Byte.openParen then
            match ← callEnd depth text stop with
            | .statement stop => return ⟨i, stop⟩ :: (← statementsFrom depth atStart text stop)
            | .expression => statementsFrom depth false text stop
            | .unclosed => return []
          else statementsFrom depth false text stop
        else
          statementsFrom depth (if Byte.isBlank b then atStart else isBoundary b) text (i + 1)
    else return []

/-- The statements of a text. -/
def findStatements (depth : Nat) (text : Bytes) : Running (List Span) :=
  statementsFrom depth true text 0

end Unguarded

end DebugSweep.Cursor
