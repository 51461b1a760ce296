import DebugSweep.Json.Value

/-!
# The words of a JSON text

Any JSON text, however it is laid out, is cut into brackets, colons, commas, strings and atoms:
numbers and the names `true`, `false` and `null`. Blanks between them mean nothing. The text is
read character by character; what has begun and is not complete yet is a part. A string knows the
two-character escapes, code units of four digits and pairs of them for the characters beyond
U+FFFF, and refuses a surrogate that stands alone.
-/

namespace DebugSweep.Json

/-- A decimal number: the coefficient times a power of ten. -/
structure Decimal where
  coefficient : Int
  exponent : Int
  deriving DecidableEq, Repr

namespace Decimal

/-- The digits that come first, of which one is needed, and what follows them. -/
def digits? (characters : List Char) : Option (List Char × List Char) :=
  let digits := characters.takeWhile Char.isDigit
  if digits = [] then none else some (digits, characters.dropWhile Char.isDigit)

/-- The digits of a fraction, if there is one, and what follows them. -/
def fraction? : List Char → Option (List Char × List Char)
  | '.' :: rest => digits? rest
  | characters => some ([], characters)

/-- The exponent that ends a number; none is zero. -/
def exponent? : List Char → Option Int
  | [] => some 0
  | mark :: rest =>
    if mark = 'e' ∨ mark = 'E' then
      let (sign, rest) :=
        match rest with
        | '-' :: rest => (-1, rest)
        | '+' :: rest => (1, rest)
        | rest => (1, rest)
      match digits? rest with
      | some (digits, []) => some (sign * Nat.ofDigitChars 10 digits 0)
      | _ => none
    else none

/-- A number without a sign. Only zero begins with a zero. -/
def magnitude? (characters : List Char) : Option Decimal := do
  let (whole, rest) ← digits? characters
  if whole.head? = some '0' ∧ whole.length ≠ 1 then none
  else
    let (fraction, rest) ← fraction? rest
    let exponent ← exponent? rest
    some ⟨Nat.ofDigitChars 10 (whole ++ fraction) 0, exponent - fraction.length⟩

/-- The number written by the characters. -/
def read? : List Char → Option Decimal
  | '-' :: rest => (magnitude? rest).map fun number => ⟨-number.coefficient, number.exponent⟩
  | characters => magnitude? characters

end Decimal

/-- A value that is written by one word. -/
inductive Atom where
  | null
  | bool (value : Bool)
  | number (value : Decimal)
  deriving DecidableEq, Repr

/-- The atom written by a word. -/
def Atom.read? (word : List Char) : Option Atom :=
  if word = ['n', 'u', 'l', 'l'] then some .null
  else if word = ['t', 'r', 'u', 'e'] then some (.bool true)
  else if word = ['f', 'a', 'l', 's', 'e'] then some (.bool false)
  else (Decimal.read? word).map .number

/-- What a text is cut into. -/
inductive Token where
  | openArray
  | closeArray
  | openObject
  | closeObject
  | colon
  | comma
  | string (text : String)
  | atom (atom : Atom)
  deriving DecidableEq, Repr

/-- How far an escape in a string has been read. -/
inductive Escape where
  /-- None has begun. -/
  | none
  /-- Its backslash has been read; behind a high surrogate, a low one must follow. -/
  | begun (high : Option Nat)
  /-- The digits of a code unit are being read, of which some are missing. -/
  | digits (high : Option Nat) (unit missing : Nat)
  /-- It was a high surrogate, and the escape of a low one must follow. -/
  | surrogate (high : Nat)
  deriving DecidableEq, Repr

/-- A string of which the end has not been read, its characters last first. -/
structure Unclosed where
  characters : List Char
  escape : Escape
  deriving DecidableEq, Repr

/-- The digit of a hexadecimal number in either case. -/
def hexValue? (c : Char) : Option Nat :=
  if '0' ≤ c ∧ c ≤ '9' then some (c.toNat - '0'.toNat)
  else if 'a' ≤ c ∧ c ≤ 'f' then some (c.toNat - 'a'.toNat + 10)
  else if 'A' ≤ c ∧ c ≤ 'F' then some (c.toNat - 'A'.toNat + 10)
  else none

/-- The character of an escape of two characters. -/
def escaped? (c : Char) : Option Char :=
  [('"', '"'), ('\\', '\\'), ('/', '/'), ('b', '\x08'), ('f', '\x0c'), ('n', '\n'), ('r', '\r'),
    ('t', '\t')].lookup c

namespace Unclosed

/-- The string with one more character. -/
def push (unclosed : Unclosed) (c : Char) : Unclosed := ⟨c :: unclosed.characters, .none⟩

/-- The string with one more code unit, which may be the first or the second of a pair. -/
def pushUnit? (unclosed : Unclosed) (high : Option Nat) (unit : Nat) : Option Unclosed :=
  let isHigh := 0xD800 ≤ unit ∧ unit < 0xDC00
  let isLow := 0xDC00 ≤ unit ∧ unit < 0xE000
  match high with
  | none =>
    if isHigh then some { unclosed with escape := .surrogate unit }
    else if isLow then none
    else some (unclosed.push (Char.ofNat unit))
  | some high =>
    if isLow then
      some (unclosed.push (Char.ofNat (0x10000 + (high - 0xD800) * 0x400 + (unit - 0xDC00))))
    else none

/-- The string after a character that does not close it. -/
def step (unclosed : Unclosed) (c : Char) : Option Unclosed :=
  match unclosed.escape with
  | .none =>
    if c = '\\' then some { unclosed with escape := .begun none }
    else if c.toNat < 0x20 then none
    else some (unclosed.push c)
  | .begun high =>
    if c = 'u' then some { unclosed with escape := .digits high 0 4 }
    else if high = none then (escaped? c).map unclosed.push
    else none
  | .digits high unit missing => do
    let digit ← hexValue? c
    let unit := unit * 16 + digit
    if missing ≤ 1 then unclosed.pushUnit? high unit
    else some { unclosed with escape := .digits high unit (missing - 1) }
  | .surrogate high =>
    if c = '\\' then some { unclosed with escape := .begun (some high) } else none

end Unclosed

/-- What has begun and is not complete. -/
inductive Part where
  | nothing
  /-- A word, which ends where another token or a blank begins; its characters last first. -/
  | word (characters : List Char)
  | string (unclosed : Unclosed)
  deriving DecidableEq, Repr

/-- A text that is being cut: the tokens so far, last first, and what has begun. -/
structure Lexer where
  tokens : List Token
  part : Part
  deriving DecidableEq, Repr

/-- Space, tab and the ends of lines. -/
def isBlank (c : Char) : Bool := c == ' ' || c == '\t' || c == '\n' || c == '\r'

/-- What numbers and names are written with. -/
def isWord (c : Char) : Bool := c.isAlphanum || c == '+' || c == '-' || c == '.'

/-- The tokens of one character. -/
def punctuation? (c : Char) : Option Token :=
  [('[', Token.openArray), (']', .closeArray), ('\x7b', .openObject), ('\x7d', .closeObject),
    (':', .colon), (',', .comma)].lookup c

namespace Lexer

/-- The lexer after a character that begins something. -/
def start (tokens : List Token) (c : Char) : Option Lexer :=
  if isBlank c then some ⟨tokens, .nothing⟩
  else if isWord c then some ⟨tokens, .word [c]⟩
  else if c = '"' then some ⟨tokens, .string ⟨[], .none⟩⟩
  else (punctuation? c).map fun token => ⟨token :: tokens, .nothing⟩

/-- The tokens with the word that ends here. -/
def settle? (lexer : Lexer) : Option (List Token) :=
  match lexer.part with
  | .nothing => some lexer.tokens
  | .word characters =>
    (Atom.read? characters.reverse).map fun atom => .atom atom :: lexer.tokens
  | .string _ => none

/-- The lexer after one more character. -/
def step (lexer : Lexer) (c : Char) : Option Lexer :=
  match lexer.part with
  | .nothing => start lexer.tokens c
  | .word characters =>
    if isWord c then some { lexer with part := .word (c :: characters) }
    else lexer.settle?.bind (start · c)
  | .string unclosed =>
    if unclosed.escape = .none ∧ c = '"' then
      some ⟨.string (String.ofList unclosed.characters.reverse) :: lexer.tokens, .nothing⟩
    else (unclosed.step c).map fun unclosed => { lexer with part := .string unclosed }

end Lexer

/-- The tokens of a text. -/
def tokens? (text : List Char) : Option (List Token) := do
  let lexer ← text.foldlM Lexer.step ⟨[], .nothing⟩
  let tokens ← lexer.settle?
  some tokens.reverse

end DebugSweep.Json
