import Mathlib.Algebra.GroupWithZero.Nat
import DebugSweep.Strip.Pass
import DebugSweep.Text.Blank

/-!
# Patterns

The passes as patterns over characters. A pattern is a row of items, each a single character or a
run of any length; a run takes as much as it can and gives back only what the items after it need,
and the leftmost match is taken. The pattern of a pass first matches the blanks before a call, which
are kept, and then the call, which the marker replaces.
-/

namespace DebugSweep.Strip

/-- A part of a pattern. -/
inductive Item where
  /-- This character. -/
  | one (c : Char)
  /-- Any number of characters of a class. -/
  | run (class? : Char → Bool)

/-- Match a run of a class and then the items after it, the longest run first. -/
def matchRun? (class? : Char → Bool) (after? : List Char → Option (List Nat)) :
    List Char → Option (List Nat)
  | [] => (after? []).map (0 :: ·)
  | c :: rest =>
    let shortest := (after? (c :: rest)).map (0 :: ·)
    if class? c then
      match matchRun? class? after? rest with
      | some (length :: lengths) => some ((length + 1) :: lengths)
      | _ => shortest
    else shortest

/-- The lengths of what the items match at the head of the text. -/
def matchItems? : List Item → List Char → Option (List Nat)
  | [], _ => some []
  | .one _ :: _, [] => none
  | .one c :: items, d :: rest => if c = d then (matchItems? items rest).map (1 :: ·) else none
  | .run class? :: items, text => matchRun? class? (matchItems? items) text

/-- A text after the matches of a pattern have been replaced, and how many there were. -/
structure Replaced where
  text : List Char
  count : Nat
  deriving DecidableEq, Repr

/-- Replace each match of the items, except for what the first item matches, by `replacement`. The
first `skip` characters belong to the match before. -/
def replaceMatches (items : List Item) (replacement : List Char) (skip : Nat) :
    List Char → Replaced
  | [] => ⟨[], 0⟩
  | c :: rest =>
    match skip with
    | skip + 1 => replaceMatches items replacement skip rest
    | 0 =>
      match matchItems? items (c :: rest) with
      | some (kept :: lengths) =>
        let after := replaceMatches items replacement (kept + lengths.sum - 1) rest
        ⟨(c :: rest).take kept ++ (replacement ++ after.text), after.count + 1⟩
      | _ =>
        let after := replaceMatches items replacement 0 rest
        ⟨c :: after.text, after.count⟩

/-- The delimiter up to which a pass takes the arguments. -/
def Reach.delimiter : Reach → Char
  | .narrow => ')'
  | .broad => ';'

/-- Blanks, a name and its parenthesis, arguments without the delimiter, and the end of a call. -/
def patternOf (name : List Char) (reach : Reach) : List Item :=
  .run Text.isBlank :: (name.map .one ++
    [.one '(', .run (· != reach.delimiter), .one ')', .one ';'])

end DebugSweep.Strip
