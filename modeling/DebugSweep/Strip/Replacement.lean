import DebugSweep.Source.Statement

/-!
# Replacing ranges of a text by the marker

Every strategy finds ranges of the text and puts the marker comment in the place of each;
whatever lies between the ranges is kept as it stands.
-/

namespace DebugSweep.Strip

open Source (Span)

/-- The comment written in place of a removed statement. -/
def marker : Bytes := ascii "// Debug logging removed"

/-- A text after stripping, with the number of statements reported as removed. -/
structure Stripped where
  text : Bytes
  removed : Nat
  deriving DecidableEq, Repr

/-- The text, which begins at offset `position`, with each range replaced by the marker. -/
def replaceFrom (position : Nat) : List Span → Bytes → Bytes
  | [], text => text
  | span :: spans, text =>
    text.take (span.start - position) ++
      (marker ++ replaceFrom span.stop spans (text.drop (span.stop - position)))

/-- The text with each range replaced by the marker. -/
def replaceSpans (spans : List Span) (text : Bytes) : Bytes := replaceFrom 0 spans text

end DebugSweep.Strip
