import DebugSweep.Source.Statement

/-!
# Lexemes

A text cut into comments, literals, identifiers and single bytes, and the debug-output statements
read off that list. `statementsOf` never looks into a comment or a literal again: it matches
parentheses over the list and looks back in it for what stands before a call. The cut also tells
code from the rest: a byte is code if its lexeme is neither a comment nor a literal.
-/

namespace DebugSweep.Source

/-- What a lexeme is. -/
inductive LexemeKind where
  | comment
  | literal
  /-- A run of identifier bytes. -/
  | word
  /-- A single byte. -/
  | byte
  deriving DecidableEq, Repr

/-- A piece of a text. -/
structure Lexeme where
  kind : LexemeKind
  text : Bytes
  deriving DecidableEq, Repr

/-- The kind and the length of the lexeme at byte `b` with `rest` after it. -/
def lexemeAt (inWord : Bool) (b : UInt8) (rest : Bytes) : LexemeKind × Nat :=
  match triviaLength? inWord (b :: rest) with
  | some length => (if b = Byte.slash then .comment else .literal, length)
  | none =>
    if Byte.isWordStart b then (.word, (rest.takeWhile Byte.isWord).length + 1) else (.byte, 1)

/-- The lexemes of a text whose first `skip` bytes belong to the lexeme before. -/
def lexemesFrom (skip : Nat) (inWord : Bool) : Bytes → List Lexeme
  | [] => []
  | b :: rest =>
    match skip with
    | skip + 1 => lexemesFrom skip (Byte.isWord b) rest
    | 0 =>
      let (kind, length) := lexemeAt inWord b rest
      ⟨kind, (b :: rest).take length⟩ :: lexemesFrom (length - 1) (Byte.isWord b) rest

/-- The lexemes of a text. -/
def lexemes (text : Bytes) : List Lexeme := lexemesFrom 0 false text

namespace Lexeme

/-- Whether the lexeme is code. -/
def isCode (lexeme : Lexeme) : Bool := lexeme.kind == .word || lexeme.kind == .byte

/-- Whether the lexeme is a blank. -/
def isBlank (lexeme : Lexeme) : Bool := lexeme.kind == .byte && lexeme.text.all Byte.isBlank

/-- The lexeme of a byte that stands for itself. -/
def single (b : UInt8) : Lexeme := ⟨.byte, [b]⟩

/-- Whether the lexeme is this single byte. -/
def isByte (b : UInt8) (lexeme : Lexeme) : Bool := lexeme == single b

/-- Whether the lexeme is the name of a call that writes debug output. -/
def isCallName (lexeme : Lexeme) : Bool := lexeme.kind == .word && callNames.contains lexeme.text

/-- Whether the lexeme counts when the lexeme before a call is looked for. -/
def isSignificant (lexeme : Lexeme) : Bool := !lexeme.isBlank && lexeme.kind != .comment

/-- Whether a statement can begin after the lexeme. -/
def isBoundary (lexeme : Lexeme) : Bool :=
  lexeme.isByte terminator || lexeme.isByte Byte.openBrace || lexeme.isByte Byte.closeBrace

end Lexeme

/-- For every byte of the text, whether it is code. -/
def codeMask (text : Bytes) : List Bool :=
  (lexemes text).flatMap fun lexeme => List.replicate lexeme.text.length lexeme.isCode

/-- The bytes of lexemes put together. -/
def textOf (lexemes : List Lexeme) : Bytes := lexemes.flatMap Lexeme.text

/-- Whether a statement can begin after the lexemes `before`, the nearest of which comes first. -/
def canBeginAfter (before : List Lexeme) : Bool :=
  (before.find? Lexeme.isSignificant).all Lexeme.isBoundary

/-- The number of lexemes of an argument list up to its closing parenthesis, where `nested` further
parentheses are open. -/
def argumentCount? (nested : Nat) : List Lexeme → Option Nat
  | [] => none
  | lexeme :: rest =>
    if lexeme.isByte Byte.closeParen then
      match nested with
      | 0 => some 1
      | nested + 1 => (argumentCount? nested rest).map (· + 1)
    else
      (argumentCount? (if lexeme.isByte Byte.openParen then nested + 1 else nested) rest).map (· + 1)

/-- Whether the lexemes begin, blanks aside, with the terminator. -/
def terminates (lexemes : List Lexeme) : Bool :=
  (lexemes.dropWhile Lexeme.isBlank).head?.any (Lexeme.isByte terminator)

/-- What stands at the head of the lexemes, where a statement can begin; a statement is measured in
lexemes. -/
def candidateOf : List Lexeme → Candidate
  | name :: opening :: rest =>
    if name.isCallName && opening.isByte Byte.openParen then
      match argumentCount? 0 rest with
      | none => .unclosed
      | some count =>
        let after := rest.drop count
        if terminates after then .statement (count + (after.takeWhile Lexeme.isBlank).length + 3)
        else .other
    else .other
  | _ => .other

/-- The statements among lexemes that begin at offset `position` after the lexemes `before`, where
the first `skip` lexemes belong to the statement found before. -/
def statementsAmong (position skip : Nat) (before : List Lexeme) : List Lexeme → List Span
  | [] => []
  | lexeme :: rest =>
    let next := position + lexeme.text.length
    match skip with
    | skip + 1 => statementsAmong next skip (lexeme :: before) rest
    | 0 =>
      match if canBeginAfter before then candidateOf (lexeme :: rest) else .other with
      | .statement count =>
        ⟨position, position + (textOf ((lexeme :: rest).take count)).length⟩ ::
          statementsAmong next (count - 1) (lexeme :: before) rest
      | .unclosed => []
      | .other => statementsAmong next 0 (lexeme :: before) rest

/-- The debug-output statements read off a list of lexemes. -/
def statementsOf (lexemes : List Lexeme) : List Span := statementsAmong 0 0 [] lexemes

end DebugSweep.Source
