import DebugSweep.Text.Ascii

/-!
# Regions of a source text

A comment, a string literal, an interpolation or an argument list is a region: it opens with a
token and runs to its own end. Interpolations stand inside literals and may hold comments and
literals again, so the regions open at a place form a stack, innermost first. `Region.step` says
what one place does to the stack, and `closeLength?` follows the stack until the outermost region
has closed.

Every step passes over at least one byte, so a text is read in one pass. A text that ends while
a region is open has no closing place. Other braces and parentheses do not matter: an interpolation
counts braces only and an argument list parentheses only.
-/

namespace DebugSweep.Source

/-- A stretch of source that has been opened and not yet closed. -/
inductive Region where
  /-- An argument list, with the parentheses still open inside it. -/
  | arguments (nested : Nat)
  /-- An interpolation, with the braces still open inside it. -/
  | interpolation (nested : Nat)
  /-- A string literal; a raw one has neither escapes nor interpolations. -/
  | literal (quote : UInt8) (triple raw : Bool)
  /-- A comment that ends before the newline of its line. -/
  | lineComment
  /-- A block comment, with the comments still open inside it. -/
  | blockComment (nested : Nat)
  deriving DecidableEq, Repr

/-- The literal that a quote begins, `rest` being what follows, and the length of its quotes. -/
def literalOpening (raw : Bool) (quote : UInt8) (rest : Bytes) : Region × Nat :=
  if rest.take 2 = [quote, quote] then (.literal quote true raw, 3)
  else (.literal quote false raw, 1)

/-- The comment or literal that opens at the head of the text, and the length of its opening.
An `r` marks a raw literal only where no identifier byte stands before it (`inWord`). -/
def opening? (inWord : Bool) : Bytes → Option (Region × Nat)
  | [] => none
  | b :: rest =>
    if b = Byte.slash then
      if rest.head? = some Byte.slash then some (.lineComment, 1)
      else if rest.head? = some Byte.star then some (.blockComment 0, 2)
      else none
    else if Byte.isQuote b then some (literalOpening false b rest)
    else if b = Byte.letterR && !inWord then
      match rest with
      | [] => none
      | q :: rest =>
        if Byte.isQuote q then
          let (region, length) := literalOpening true q rest
          some (region, length + 1)
        else none
    else none

/-- The quotes of a literal take up at least one byte. -/
theorem literalOpening_length_pos (raw : Bool) (quote : UInt8) (rest : Bytes) :
    0 < (literalOpening raw quote rest).2 := by
  unfold literalOpening
  split <;> simp

/-- An opening takes up at least one byte. -/
theorem opening?_length_pos {inWord : Bool} {text : Bytes} {region : Region} {length : Nat}
    (h : opening? inWord text = some (region, length)) : 0 < length := by
  unfold opening? at h
  split at h
  · cases h
  · rename_i b rest
    split at h
    · split at h
      · cases h; decide
      · split at h
        · cases h; decide
        · cases h
    · split at h
      · have positive := literalOpening_length_pos false b rest
        cases hl : literalOpening false b rest with
        | mk found quotes => rw [hl] at positive h; cases h; exact positive
      · split at h
        · split at h
          · cases h
          · split at h
            · cases h; omega
            · cases h
        · cases h

/-- What is open after one more `opener` or `closer` has been met inside a region. -/
def countNested (region : Nat → Region) (opener closer : UInt8) (nested : Nat)
    (outer : List Region) (b : UInt8) : List Region :=
  if b = opener then region (nested + 1) :: outer
  else if b = closer then
    match nested with
    | 0 => outer
    | n + 1 => region n :: outer
  else region nested :: outer

/-- One step inside `region`, at byte `b` with `rest` after it: the regions open afterwards and the
number of bytes passed over. -/
def Region.step (region : Region) (outer : List Region) (inWord : Bool) (b : UInt8) (rest : Bytes) :
    List Region × Nat :=
  match region with
  | .lineComment =>
    (if rest.head? = some Byte.newline then outer else .lineComment :: outer, 1)
  | .blockComment nested =>
    if b = Byte.slash ∧ rest.head? = some Byte.star then (.blockComment (nested + 1) :: outer, 2)
    else if b = Byte.star ∧ rest.head? = some Byte.slash then
      match nested with
      | 0 => (outer, 2)
      | n + 1 => (.blockComment n :: outer, 2)
    else (.blockComment nested :: outer, 1)
  | .literal quote triple raw =>
    if b = Byte.backslash ∧ !raw then (.literal quote triple raw :: outer, 2)
    else if b = Byte.dollar ∧ !raw ∧ rest.head? = some Byte.openBrace then
      (.interpolation 0 :: .literal quote triple raw :: outer, 2)
    else if b = quote ∧ !triple then (outer, 1)
    else if b = quote ∧ rest.take 2 = [quote, quote] then (outer, 3)
    else if b = Byte.newline ∧ !triple then (outer, 1)
    else (.literal quote triple raw :: outer, 1)
  | .interpolation nested =>
    match opening? inWord (b :: rest) with
    | some (inner, length) => (inner :: .interpolation nested :: outer, length)
    | none => (countNested .interpolation Byte.openBrace Byte.closeBrace nested outer b, 1)
  | .arguments nested =>
    match opening? inWord (b :: rest) with
    | some (inner, length) => (inner :: .arguments nested :: outer, length)
    | none => (countNested .arguments Byte.openParen Byte.closeParen nested outer b, 1)

/-- A step passes over at least one byte. -/
theorem Region.step_length_pos (region : Region) (outer : List Region) (inWord : Bool) (b : UInt8)
    (rest : Bytes) : 0 < (region.step outer inWord b rest).2 := by
  unfold Region.step
  split
  · simp
  · split
    · simp
    · split
      · split <;> simp
      · simp
  · repeat' split
    all_goals simp
  · split
    · rename_i h; exact opening?_length_pos h
    · simp
  · split
    · rename_i h; exact opening?_length_pos h
    · simp

/-- How many bytes run up to the place where every region of the stack has closed; `none` if the
text ends before. `passed` bytes lie behind, the next `skip` bytes belong to the step just taken,
and `inWord` says that an identifier byte stands directly before. -/
def closeLength? (passed skip : Nat) (regions : List Region) (inWord : Bool) : Bytes → Option Nat
  | [] => if regions.isEmpty then some (passed + skip) else none
  | b :: rest =>
    match regions, skip with
    | [], _ => some (passed + skip)
    | region :: outer, skip + 1 =>
      closeLength? (passed + 1) skip (region :: outer) (Byte.isWord b) rest
    | region :: outer, 0 =>
      let (regions, length) := region.step outer inWord b rest
      closeLength? (passed + 1) (length - 1) regions (Byte.isWord b) rest

/-- The length of the comment or literal at the head of the text, if one opens there; one that is
never closed runs to the end of the text. -/
def triviaLength? (inWord : Bool) (text : Bytes) : Option Nat :=
  match opening? inWord text with
  | none => none
  | some (region, length) =>
    match closeLength? length 0 [region] false (text.drop length) with
    | none => some text.length
    | some n => some n

end DebugSweep.Source
