/-!
# JSON values and their written form

The value type of the machine-readable report: numbers are natural, and an object keeps its members
in the order they are given. The written form puts every item and every member on a line of its
own, two spaces deeper than the bracket that opened them. Strings escape the quote, the backslash
and the control characters below U+0020, and nothing else.
-/

namespace DebugSweep

/-- A JSON value. -/
inductive Json where
  | bool (value : Bool)
  | number (value : Nat)
  | string (value : String)
  | array (items : List Json)
  | object (members : List (String × Json))
  deriving Repr

namespace Json

/-- A digit of a hexadecimal number, in lower case. -/
def hexDigit (value : Nat) : Char :=
  if value < 10 then Char.ofNat (0x30 + value) else Char.ofNat (0x61 + (value - 10))

/-- A character as it stands between the quotes of a string. -/
def escape (c : Char) : List Char :=
  if c = '"' then ['\\', '"']
  else if c = '\\' then ['\\', '\\']
  else if c = '\x08' then ['\\', 'b']
  else if c = '\t' then ['\\', 't']
  else if c = '\n' then ['\\', 'n']
  else if c = '\x0c' then ['\\', 'f']
  else if c = '\r' then ['\\', 'r']
  else if c.toNat < 0x20 then
    ['\\', 'u', '0', '0', hexDigit (c.toNat / 16), hexDigit (c.toNat % 16)]
  else [c]

/-- A string with its quotes. -/
def quote (text : String) : List Char := '"' :: (text.toList.flatMap escape ++ ['"'])

/-- The end of a line and the indentation of the next. -/
def newline (level : Nat) : List Char := '\n' :: List.replicate (2 * level) ' '

mutual

/-- The characters of a value that stands `level` brackets deep. -/
def characters (level : Nat) : Json → List Char
  | .bool true => ['t', 'r', 'u', 'e']
  | .bool false => ['f', 'a', 'l', 's', 'e']
  | .number value => Nat.toDigits 10 value
  | .string value => quote value
  | .array [] => ['[', ']']
  | .array (item :: items) =>
    '[' :: (newline (level + 1) ++ item.characters (level + 1) ++
      itemsAfter (level + 1) items ++ newline level ++ [']'])
  | .object [] => ['\x7b', '\x7d']
  | .object ((key, value) :: members) =>
    '\x7b' :: (newline (level + 1) ++ quote key ++ [':', ' '] ++ value.characters (level + 1) ++
      membersAfter (level + 1) members ++ newline level ++ ['\x7d'])

/-- The items that follow another one. -/
def itemsAfter (level : Nat) : List Json → List Char
  | [] => []
  | item :: items => ',' :: (newline level ++ item.characters level ++ itemsAfter level items)

/-- The members that follow another one. -/
def membersAfter (level : Nat) : List (String × Json) → List Char
  | [] => []
  | (key, value) :: members =>
    ',' :: (newline level ++ quote key ++ [':', ' '] ++ value.characters level ++
      membersAfter level members)

end

/-- The written form of a value. -/
def write (value : Json) : String := String.ofList (value.characters 0)

end Json

end DebugSweep
