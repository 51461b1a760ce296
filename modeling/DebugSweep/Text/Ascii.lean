/-!
# Bytes and the ASCII classes the sources are read by

Texts, file contents and paths are lists of bytes. All syntax that matters to the sweep is
ASCII, so a byte of a longer UTF-8 sequence belongs to none of the classes below.
-/

namespace DebugSweep

/-- A text, a file's content or a path, byte by byte. -/
abbrev Bytes := List UInt8

/-- The bytes of a text written in ASCII. -/
def ascii (text : String) : Bytes := text.toList.map Char.toUInt8

namespace Byte

abbrev newline : UInt8 := 0x0A
abbrev doubleQuote : UInt8 := 0x22
abbrev dollar : UInt8 := 0x24
abbrev singleQuote : UInt8 := 0x27
abbrev openParen : UInt8 := 0x28
abbrev closeParen : UInt8 := 0x29
abbrev star : UInt8 := 0x2A
abbrev hyphen : UInt8 := 0x2D
abbrev dot : UInt8 := 0x2E
abbrev slash : UInt8 := 0x2F
abbrev semicolon : UInt8 := 0x3B
abbrev equals : UInt8 := 0x3D
abbrev backslash : UInt8 := 0x5C
abbrev letterR : UInt8 := 0x72
abbrev openBrace : UInt8 := 0x7B
abbrev closeBrace : UInt8 := 0x7D

/-- Space, tab, newline, form feed and carriage return. -/
def isBlank (b : UInt8) : Bool := b == 0x20 || b == 0x09 || b == 0x0A || b == 0x0C || b == 0x0D

/-- A letter, `_` or `$`: what an identifier may begin with. -/
def isWordStart (b : UInt8) : Bool :=
  (0x41 ≤ b && b ≤ 0x5A) || (0x61 ≤ b && b ≤ 0x7A) || b == 0x5F || b == 0x24

/-- What may stand inside an identifier: an identifier start or a digit. -/
def isWord (b : UInt8) : Bool := isWordStart b || (0x30 ≤ b && b ≤ 0x39)

/-- A single or a double quote. -/
def isQuote (b : UInt8) : Bool := b == singleQuote || b == doubleQuote

end Byte

end DebugSweep
