import DebugSweep.Strip.Replacement

/-!
# Textual passes

A pass looks for one call name and decides by the next delimiter alone where the call ends. It knows
neither literals nor comments nor word boundaries. A narrow pass takes the arguments up to the first
`)` and counts what it replaces; a broad pass takes them up to the first `;` and does not count.

Four passes run one after the other, each over the text that the one before it left. The count is
an estimate, since the broad passes replace calls without counting them.
-/

namespace DebugSweep.Strip

open Source (Span)

/-- How far a pass takes the arguments of a call. -/
inductive Reach where
  /-- To the first `)`, which has to be followed by `;`. -/
  | narrow
  /-- To the first `;`, which has to follow a `)`. -/
  | broad
  deriving DecidableEq, Repr

/-- The length of the arguments and their terminator after a call's opening parenthesis, if they
end as the reach demands. -/
def Reach.argumentsLength? : Reach → Bytes → Option Nat
  | .narrow, text =>
    let inner := text.takeWhile (· != Byte.closeParen)
    if (text.drop (inner.length + 1)).head? = some Byte.semicolon then some (inner.length + 2)
    else none
  | .broad, text =>
    let inner := text.takeWhile (· != Byte.semicolon)
    if inner.length < text.length ∧ inner.getLast? = some Byte.closeParen then
      some (inner.length + 1)
    else none

/-- One traversal of the text for the calls of one name. -/
structure Pass where
  name : Bytes
  reach : Reach
  deriving DecidableEq, Repr

namespace Pass

/-- The length of the call at the head of the text, with its terminator, if the pass takes it. -/
def callLength? (pass : Pass) (text : Bytes) : Option Nat :=
  let opening := pass.name ++ [Byte.openParen]
  if opening.isPrefixOf text then
    (pass.reach.argumentsLength? (text.drop opening.length)).map (opening.length + ·)
  else none

/-- The calls taken in a text that begins at offset `position`, where the first `skip` bytes belong
to the call taken before. -/
def callsFrom (pass : Pass) (position skip : Nat) : Bytes → List Span
  | [] => []
  | b :: rest =>
    match skip with
    | skip + 1 => pass.callsFrom (position + 1) skip rest
    | 0 =>
      match pass.callLength? (b :: rest) with
      | some length =>
        ⟨position, position + length⟩ :: pass.callsFrom (position + 1) (length - 1) rest
      | none => pass.callsFrom (position + 1) 0 rest

/-- The calls the pass takes, from left to right. -/
def calls (pass : Pass) (text : Bytes) : List Span := pass.callsFrom 0 0 text

/-- The text with the calls replaced, and how many of them count as removed. -/
def run (pass : Pass) (text : Bytes) : Stripped :=
  let calls := pass.calls text
  { text := replaceSpans calls text
    removed := match pass.reach with
      | .narrow => calls.length
      | .broad => 0 }

end Pass

/-- The passes in the order they run: every name narrowly, then every name broadly. -/
def passes : List Pass :=
  Source.callNames.map (⟨·, .narrow⟩) ++ Source.callNames.map (⟨·, .broad⟩)

/-- Run passes one after the other, adding up what they count. -/
def runPasses (passes : List Pass) (text : Bytes) : Stripped :=
  passes.foldl
    (fun done pass =>
      let next := pass.run done.text
      { next with removed := done.removed + next.removed })
    { text, removed := 0 }

end DebugSweep.Strip
