import DebugSweep.Strip.Replacement
import DebugSweep.Text.Utf8

/-!
# The scan by offsets

The scan as it walks over a text: it holds an offset, reads the byte there, looks one byte back or
some bytes ahead, counts what is open, cuts out words, and copies what lies between the statements.
Any of these can go wrong: an offset can lie outside the text, a cut inside a character, a counter
can fall below zero, and a comment or literal that took no room would be read forever. Here each of
them is checked, and what goes wrong is reported as a `Misstep`.

The scan goes on only where it has come forward, so it ends on every text without further ado.
-/

namespace DebugSweep.Cursor

open Source

/-- What can go wrong where a text is read by offsets. -/
inductive Misstep where
  /-- An offset beyond the text, or a range that ends before it begins. -/
  | outside
  /-- A cut inside a character. -/
  | insideCharacter
  /-- A count below zero. -/
  | belowZero
  /-- No way forward. -/
  | standstill
  deriving DecidableEq, Repr

/-- The byte at an offset. -/
def byteAt (text : Bytes) (i : Nat) : Except Misstep UInt8 :=
  text[i]?.elim (.error .outside) .ok

/-- The bytes from one offset up to another. -/
def slice (text : Bytes) (start stop : Nat) : Except Misstep Bytes :=
  if start ≤ stop ∧ stop ≤ text.length then
    if Utf8.isBoundary text start && Utf8.isBoundary text stop then
      .ok ((text.take stop).drop start)
    else .error .insideCharacter
  else .error .outside

/-- One less. -/
def countDown : Nat → Except Misstep Nat
  | 0 => .error .belowZero
  | n + 1 => .ok n

/-- An offset that lies behind another. -/
def forward (i next : Nat) : Except Misstep {j : Nat // i < j} :=
  if h : i < next then .ok ⟨next, h⟩ else .error .standstill

/-- The offset of the first byte from `i` on at which to stop, or the end of the text. -/
def firstFrom (stops : UInt8 → Bool) (text : Bytes) (i : Nat) : Except Misstep Nat :=
  if i ≤ text.length then
    .ok (((text.drop i).findIdx? stops).elim text.length (i + ·))
  else .error .outside

/-- Where the line ends. -/
def lineEnd : Bytes → Nat → Except Misstep Nat := firstFrom (· == Byte.newline)

/-- Where the identifier ends. -/
def wordEnd : Bytes → Nat → Except Misstep Nat := firstFrom (!Byte.isWord ·)

/-- Whether an identifier byte stands directly before the offset. -/
def isAfterWord (text : Bytes) (i : Nat) : Except Misstep Bool :=
  if i = 0 then .ok false
  else do
    let before ← countDown i
    return Byte.isWord (← byteAt text before)

/-- Whether three quotes stand at the offset. -/
def isTriple (text : Bytes) (i : Nat) (quote : UInt8) : Bool :=
  (text.drop i).take 3 == [quote, quote, quote]

/-- Where a block comment ends, with `depth` comments open at the offset. -/
def blockCommentEnd (text : Bytes) (depth i : Nat) : Except Misstep Nat :=
  if _ : i < text.length then do
    let b ← byteAt text i
    if b = Byte.slash ∧ text[i + 1]? = some Byte.star then
      blockCommentEnd text (depth + 1) (i + 2)
    else if b = Byte.star ∧ text[i + 1]? = some Byte.slash then
      let depth ← countDown depth
      if depth = 0 then return i + 2 else blockCommentEnd text depth (i + 2)
    else blockCommentEnd text depth (i + 1)
  else return text.length
termination_by text.length - i

mutual

/-- The offset behind the comment or literal that begins at an offset, if one does. -/
def triviaEnd (text : Bytes) (i : Nat) : Except Misstep (Option Nat) := do
  let b ← byteAt text i
  if b = Byte.slash ∧ text[i + 1]? = some Byte.slash then
    return some (← lineEnd text i)
  else if b = Byte.slash ∧ text[i + 1]? = some Byte.star then
    return some (← blockCommentEnd text 1 (i + 2))
  else if Byte.isQuote b then
    return some (← literalEnd false text i)
  else if b = Byte.letterR ∧ text[i + 1]?.any Byte.isQuote then
    if ← isAfterWord text i then return none
    else return some (← literalEnd true text (i + 1))
  else return none
termination_by (text.length - i, 2)
decreasing_by all_goals rw [Prod.lex_def]; omega

/-- The offset behind the literal whose quote stands at an offset. -/
def literalEnd (raw : Bool) (text : Bytes) (i : Nat) : Except Misstep Nat := do
  let quote ← byteAt text i
  let triple := isTriple text i quote
  literalEndFrom quote triple raw text (i + if triple then 3 else 1)
termination_by (text.length - i, 1)
decreasing_by rw [Prod.lex_def]; omega

/-- The offset behind the literal in which an offset lies. One that ends with its line, for want of
a quote, ends behind the newline. -/
def literalEndFrom (quote : UInt8) (triple raw : Bool) (text : Bytes) (i : Nat) :
    Except Misstep Nat :=
  if _ : i < text.length then do
    let b ← byteAt text i
    if b = Byte.backslash ∧ raw = false then literalEndFrom quote triple raw text (i + 2)
    else if b = Byte.dollar ∧ raw = false ∧ text[i + 1]? = some Byte.openBrace then
      let ⟨next, _⟩ ← forward i (← interpolationEnd 1 text (i + 2))
      literalEndFrom quote triple raw text next
    else if b = quote ∧ triple = false then return i + 1
    else if b = quote ∧ isTriple text i quote then return i + 3
    else if b = Byte.newline ∧ triple = false then return i + 1
    else literalEndFrom quote triple raw text (i + 1)
  else return text.length
termination_by (text.length - i, 0)

/-- The offset behind the interpolation in which an offset lies, with `depth` braces open there. -/
def interpolationEnd (depth : Nat) (text : Bytes) (i : Nat) : Except Misstep Nat :=
  if _ : i < text.length then do
    match ← triviaEnd text i with
    | some next =>
      let ⟨next, _⟩ ← forward i next
      interpolationEnd depth text next
    | none =>
      let b ← byteAt text i
      if b = Byte.openBrace then interpolationEnd (depth + 1) text (i + 1)
      else if b = Byte.closeBrace then
        let depth ← countDown depth
        if depth = 0 then return i + 1 else interpolationEnd depth text (i + 1)
      else interpolationEnd depth text (i + 1)
  else return text.length
termination_by (text.length - i, 3)

end

/-- The offset of the parenthesis that closes an argument list, if one does, with `depth`
parentheses open at the offset. -/
def closingParen? (depth : Nat) (text : Bytes) (i : Nat) : Except Misstep (Option Nat) :=
  if _ : i < text.length then do
    match ← triviaEnd text i with
    | some next =>
      let ⟨next, _⟩ ← forward i next
      closingParen? depth text next
    | none =>
      let b ← byteAt text i
      if b = Byte.openParen then closingParen? (depth + 1) text (i + 1)
      else if b = Byte.closeParen then
        let depth ← countDown depth
        if depth = 0 then return some i else closingParen? depth text (i + 1)
      else closingParen? depth text (i + 1)
  else return none
termination_by text.length - i

/-- The offset of the first byte from `i` on that is no blank, or the end of the text. -/
def blanksEnd (text : Bytes) (i : Nat) : Except Misstep Nat :=
  if _ : i < text.length then do
    if Byte.isBlank (← byteAt text i) then blanksEnd text (i + 1) else return i
  else return i
termination_by text.length - i

/-- How a call ends whose parenthesis stands at an offset. -/
inductive CallEnd where
  /-- Closed and terminated, with the offset behind the terminator. -/
  | statement (stop : Nat)
  /-- Closed, but not terminated. -/
  | expression
  /-- Still open at the end of the text. -/
  | unclosed
  deriving DecidableEq, Repr

/-- How the call ends whose parenthesis stands at an offset. -/
def callEnd (text : Bytes) (i : Nat) : Except Misstep CallEnd := do
  match ← closingParen? 0 text i with
  | none => return .unclosed
  | some close =>
    let next ← blanksEnd text (close + 1)
    if text[next]? = some terminator then return .statement (next + 1) else return .expression

/-- The statements from an offset on; `atStart` says that one can begin there. -/
def statementsFrom (atStart : Bool) (text : Bytes) (i : Nat) : Except Misstep (List Span) :=
  if _ : i < text.length then do
    let b ← byteAt text i
    match ← triviaEnd text i with
    | some next =>
      let ⟨next, _⟩ ← forward i next
      statementsFrom (atStart && b == Byte.slash) text next
    | none =>
      if Byte.isWordStart b then
        let ⟨stop, _⟩ ← forward i (← wordEnd text i)
        let name ← slice text i stop
        if atStart ∧ name ∈ callNames ∧ text[stop]? = some Byte.openParen then
          match ← callEnd text stop with
          | .statement stop =>
            let ⟨stop, _⟩ ← forward i stop
            return ⟨i, stop⟩ :: (← statementsFrom atStart text stop)
          | .expression => statementsFrom false text stop
          | .unclosed => return []
        else statementsFrom false text stop
      else statementsFrom (if Byte.isBlank b then atStart else isBoundary b) text (i + 1)
  else return []
termination_by text.length - i

/-- The statements of a text. -/
def findStatements (text : Bytes) : Except Misstep (List Span) := statementsFrom true text 0

/-- The text from an offset on with the ranges replaced by the marker, copied slice by slice. -/
def copyFrom (text : Bytes) (last : Nat) : List Span → Except Misstep Bytes
  | [] => slice text last text.length
  | span :: spans => do
    let kept ← slice text last span.start
    return kept ++ (Strip.marker ++ (← copyFrom text span.stop spans))

/-- The text with its statements replaced by the marker. -/
def strip (text : Bytes) : Except Misstep Strip.Stripped := do
  let statements ← findStatements text
  return ⟨← copyFrom text 0 statements, statements.length⟩

end DebugSweep.Cursor
