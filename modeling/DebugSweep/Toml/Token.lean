/-!
# Tokens of a TOML document

The reader is made for configurations, whose values are strings and tables. So a token is a string,
a bare word, a piece of punctuation or the end of a line; blanks and comments between tokens are
dropped. Strings come in the four forms of TOML 1.1: basic and literal, each on one line or on many.
Characters that may not stand where they do, and strings without an end, refuse the whole text.
-/

namespace DebugSweep.Toml

/-- A token. -/
inductive Token where
  | newline
  | equals
  | dot
  | comma
  | openBracket
  | closeBracket
  | openBrace
  | closeBrace
  /-- A word written without quotes. -/
  | bare (word : List Char)
  /-- A string by what it stands for. -/
  | quoted (text : List Char) (multiline : Bool)
  deriving DecidableEq, Repr

/-- Whether the character may stand in a bare word. -/
def isBare (c : Char) : Bool := c.isAlphanum || c == '_' || c == '-'

/-- Whether the character is a control character other than a tab. -/
def isControl (c : Char) : Bool := (c.toNat < 0x20 && c != '\t') || c.toNat == 0x7F

/-- The token that a single character is. -/
def punctuation? (c : Char) : Option Token :=
  [('=', Token.equals), ('.', .dot), (',', .comma), ('[', .openBracket), (']', .closeBracket),
    ('\x7b', .openBrace), ('\x7d', .closeBrace)].lookup c

/-- The value of a hexadecimal digit. -/
def hexValue? (c : Char) : Option Nat :=
  if '0' ≤ c ∧ c ≤ '9' then some (c.toNat - 0x30)
  else if 'a' ≤ c ∧ c ≤ 'f' then some (c.toNat - 0x61 + 10)
  else if 'A' ≤ c ∧ c ≤ 'F' then some (c.toNat - 0x41 + 10)
  else none

/-- The number written by `digits` hexadecimal digits at the head of the text. -/
def hexNumber? (value : Nat) : (digits : Nat) → List Char → Option Nat
  | 0, _ => some value
  | _ + 1, [] => none
  | digits + 1, c :: rest => do hexNumber? (value * 16 + (← hexValue? c)) digits rest

/-- The character with the code point written by `digits` hexadecimal digits. -/
def codePoint? (digits : Nat) (text : List Char) : Option Char := do
  let value ← hexNumber? 0 digits text
  if value.isValidChar then some (Char.ofNat value) else none

/-- The character that the escape after a backslash stands for, and the length of the escape. -/
def escape? : List Char → Option (Char × Nat)
  | [] => none
  | c :: rest =>
    match [('b', '\x08'), ('t', '\t'), ('n', '\n'), ('f', '\x0c'), ('r', '\r'), ('e', '\x1b'),
        ('"', '"'), ('\\', '\\')].lookup c with
    | some meaning => some (meaning, 1)
    | none =>
      match [('x', 2), ('u', 4), ('U', 8)].lookup c with
      | some digits => (codePoint? digits rest).map (·, digits + 1)
      | none => none

/-- The length of the line end at the head of the text; 0 if there is none. -/
def lineEndLength : List Char → Nat
  | '\n' :: _ => 1
  | '\r' :: '\n' :: _ => 2
  | _ => 0

/-- The length of the blanks and line ends at the head of the text. -/
def blankLength : List Char → Nat
  | ' ' :: rest => blankLength rest + 1
  | '\t' :: rest => blankLength rest + 1
  | '\n' :: rest => blankLength rest + 1
  | '\r' :: '\n' :: rest => blankLength rest + 2
  | _ => 0

/-- The length of what a backslash at the end of a line joins: the blanks before the line end, the
line end, and all blanks and line ends after it. -/
def joinedLength? (text : List Char) : Option Nat :=
  if lineEndLength (text.dropWhile fun c => c == ' ' || c == '\t') = 0 then none
  else some (blankLength text)

/-- How a string is quoted. -/
structure Quoting where
  /-- A literal string has no escapes. -/
  literal : Bool
  multiline : Bool
  deriving DecidableEq, Repr

/-- The quote of a string. -/
def Quoting.quote (quoting : Quoting) : Char := if quoting.literal then '\'' else '"'

/-- What the reader is inside of. -/
inductive Reading where
  | plain
  | comment
  /-- A bare word, its characters in reverse. -/
  | bare (word : List Char)
  /-- A string, its characters in reverse. -/
  | quoted (quoting : Quoting) (text : List Char)
  deriving DecidableEq, Repr

/-- What one place of the text does: the token that ends there, if any, what the reader is inside of
afterwards, and how many characters it passes over. -/
structure Step where
  token : Option Token
  reading : Reading
  length : Nat
  deriving DecidableEq, Repr

/-- The step at a character outside comments and strings. -/
def plainStep? (c : Char) (rest : List Char) : Option Step :=
  if c = ' ' ∨ c = '\t' then some ⟨none, .plain, 1⟩
  else if c = '#' then some ⟨none, .comment, 1⟩
  else if 0 < lineEndLength (c :: rest) then
    some ⟨some .newline, .plain, lineEndLength (c :: rest)⟩
  else if c = '"' ∨ c = '\'' then
    let literal := c == '\''
    if rest.take 2 = [c, c] then
      some ⟨none, .quoted ⟨literal, true⟩ [], 3 + lineEndLength (rest.drop 2)⟩
    else some ⟨none, .quoted ⟨literal, false⟩ [], 1⟩
  else if isBare c then
    some (if (rest.head?.map isBare).getD false then ⟨none, .bare [c], 1⟩
      else ⟨some (.bare [c]), .plain, 1⟩)
  else (punctuation? c).map fun token => ⟨some token, .plain, 1⟩

/-- The step at a character of a comment, which ends before its line end. -/
def commentStep? (c : Char) (rest : List Char) : Option Step :=
  if 0 < lineEndLength (c :: rest) then some ⟨some .newline, .plain, lineEndLength (c :: rest)⟩
  else if isControl c then none
  else some ⟨none, .comment, 1⟩

/-- The step at a character of a bare word. -/
def bareStep (word : List Char) (c : Char) (rest : List Char) : Step :=
  if (rest.head?.map isBare).getD false then ⟨none, .bare (c :: word), 1⟩
  else ⟨some (.bare (c :: word).reverse), .plain, 1⟩

/-- The step at a character of a string. Up to two quotes before the closing ones of a string on
many lines belong to it. -/
def quotedStep? (quoting : Quoting) (text : List Char) (c : Char) (rest : List Char) :
    Option Step :=
  if c = quoting.quote then
    if !quoting.multiline then some ⟨some (.quoted text.reverse false), .plain, 1⟩
    else
      let quotes := min 5 ((c :: rest).takeWhile (· == c)).length
      if quotes < 3 then some ⟨none, .quoted quoting (c :: text), 1⟩
      else
        let whole := text.reverse ++ List.replicate (quotes - 3) c
        some ⟨some (.quoted whole true), .plain, quotes⟩
  else if c = '\\' ∧ !quoting.literal then
    match escape? rest with
    | some (meaning, length) => some ⟨none, .quoted quoting (meaning :: text), length + 1⟩
    | none =>
      if quoting.multiline then
        (joinedLength? rest).map fun length => ⟨none, .quoted quoting text, length + 1⟩
      else none
  else if quoting.multiline ∧ 0 < lineEndLength (c :: rest) then
    let lineEnd := (c :: rest).take (lineEndLength (c :: rest))
    some ⟨none, .quoted quoting (lineEnd.reverse ++ text), lineEnd.length⟩
  else if isControl c then none
  else some ⟨none, .quoted quoting (c :: text), 1⟩

/-- The step at a character. -/
def Reading.step? : Reading → Char → List Char → Option Step
  | .plain => plainStep?
  | .comment => commentStep?
  | .bare word => fun c rest => some (bareStep word c rest)
  | .quoted quoting text => quotedStep? quoting text

/-- The tokens of a text, where the first `skip` characters belong to the step just taken. -/
def tokensFrom? (skip : Nat) (reading : Reading) : List Char → Option (List Token)
  | [] =>
    match reading with
    | .quoted .. => none
    | _ => some []
  | c :: rest =>
    match skip with
    | skip + 1 => tokensFrom? skip reading rest
    | 0 => do
      let step ← reading.step? c rest
      let tokens ← tokensFrom? (step.length - 1) step.reading rest
      some (step.token.toList ++ tokens)

/-- The tokens of a document, which may begin with a byte order mark. -/
def tokens? : List Char → Option (List Token)
  | '\uFEFF' :: rest => tokensFrom? 0 .plain rest
  | text => tokensFrom? 0 .plain text

end DebugSweep.Toml
