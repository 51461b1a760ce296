/-!
# Colour on a terminal

A painted text starts with the code of its colour and ends with the reset code. A reset code inside
the text would end the colour early, so the colour is started again after each.
-/

namespace DebugSweep.Report

/-- How a line is set off. -/
inductive Color where
  | red
  | green
  | yellow
  | cyan
  | dim
  deriving DecidableEq, Repr

namespace Color

/-- The number that selects the colour. -/
def code : Color → Nat
  | .dim => 2
  | .red => 31
  | .green => 32
  | .yellow => 33
  | .cyan => 36

/-- The characters that start the colour. -/
def start (color : Color) : List Char := s!"\x1b[{color.code}m".toList

/-- The characters that end every colour. -/
def reset : List Char := ['\x1b', '[', '0', 'm']

/-- The text with the colour started again after each reset. -/
def resume (color : Color) : List Char → List Char
  | '\x1b' :: '[' :: '0' :: 'm' :: rest => reset ++ (color.start ++ color.resume rest)
  | c :: rest => c :: color.resume rest
  | [] => []

/-- The text in the colour. -/
def paint (color : Color) (text : String) : String :=
  String.ofList (color.start ++ (color.resume text.toList ++ reset))

end Color

end DebugSweep.Report
