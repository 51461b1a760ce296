import DebugSweep.Toml.Token

/-!
# TOML documents of strings and tables

A document is a list of lines. A line opens a table or sets a key, and the lines build up one table
in which no key is set twice and no table is opened twice. Values other than strings, tables and
empty arrays are refused, since no setting has one.
-/

namespace DebugSweep.Toml

/-- How a table came about, which decides what may be added to it. -/
inductive Origin where
  /-- Opened by a line of its own. -/
  | opened
  /-- Named on the way to a table that was opened. -/
  | passed
  /-- Named on the way to a key that was set. -/
  | dotted
  /-- Written as a value. -/
  | inline
  deriving DecidableEq, Repr

/-- A value. -/
inductive Item where
  | text (value : List Char)
  | emptyArray
  | table (origin : Origin) (members : List (List Char × Item))
  deriving Repr

/-- The members of a table in the order they were added. -/
abbrev Members := List (List Char × Item)

/-- The members with a new value for a key that is there. -/
def Members.replace (members : Members) (key : List Char) (item : Item) : Members :=
  members.map fun member => if member.1 = key then (key, item) else member

/-- Set the key at the end of a path that may lead through further tables. -/
def Members.set? (members : Members) (item : Item) : List (List Char) → Option Members
  | [] => none
  | [key] =>
    match members.lookup key with
    | none => some (members ++ [(key, item)])
    | some _ => none
  | key :: path =>
    match members.lookup key with
    | none => do some (members ++ [(key, .table .dotted (← Members.set? [] item path))])
    | some (.table .dotted inner) => do
      some (members.replace key (.table .dotted (← Members.set? inner item path)))
    | some _ => none

/-- Open the table at the end of a path. -/
def Members.openTable? (members : Members) : List (List Char) → Option Members
  | [] => none
  | [key] =>
    match members.lookup key with
    | none => some (members ++ [(key, .table .opened [])])
    | some (.table .passed inner) => some (members.replace key (.table .opened inner))
    | some _ => none
  | key :: path =>
    match members.lookup key with
    | none => do some (members ++ [(key, .table .passed (← Members.openTable? [] path))])
    | some (.table .inline _) => none
    | some (.table origin inner) => do
      some (members.replace key (.table origin (← Members.openTable? inner path)))
    | some _ => none

/-- Change the table that a path leads to. -/
def Members.change? (change : Members → Option Members) (members : Members) :
    List (List Char) → Option Members
  | [] => change members
  | key :: path =>
    match members.lookup key with
    | some (.table origin inner) => do
      some (members.replace key (.table origin (← Members.change? change inner path)))
    | _ => none

/-- The tokens cut at each separator that stands in no brackets or braces, of which `depth` are
open. -/
def splitOutside (separator : Token) (depth : Nat) : List Token → List (List Token)
  | [] => [[]]
  | token :: rest =>
    if token = separator ∧ depth = 0 then [] :: splitOutside separator depth rest
    else
      let depth :=
        if token = .openBracket ∨ token = .openBrace then depth + 1
        else if token = .closeBracket ∨ token = .closeBrace then depth - 1
        else depth
      match splitOutside separator depth rest with
      | [] => [[token]]
      | piece :: pieces => (token :: piece) :: pieces

/-- The name that a token is in a key. -/
def name? : Token → Option (List Char)
  | .bare word => some word
  | .quoted text false => some text
  | _ => none

/-- The names of a key, between which dots stand. -/
def key? : List Token → Option (List (List Char))
  | [] => none
  | [token] => do some [← name? token]
  | token :: .dot :: rest => do some ((← name? token) :: (← key? rest))
  | _ => none

/-- The tokens without line ends on either side. -/
def trimNewlines (tokens : List Token) : List Token :=
  ((tokens.dropWhile (· == .newline)).reverse.dropWhile (· == .newline)).reverse

/-- What stands between the first token and the last, if these are the given ones. -/
def between? (opening closing : Token) : List Token → Option (List Token)
  | first :: rest =>
    if first = opening ∧ rest.getLast? = some closing then some rest.dropLast else none
  | [] => none

/-- The pieces without the empty one after a last comma. -/
def withoutTrailing (pieces : List (List Token)) : List (List Token) :=
  if pieces.getLast? = some [] then pieces.dropLast else pieces

/-- Set a key of a table, where `read?` reads the value. -/
def addMember? (read? : List Token → Option Item) (members : Members) (tokens : List Token) :
    Option Members := do
  let path ← key? (tokens.takeWhile (· != .equals))
  let item ← read? (tokens.dropWhile (· != .equals)).tail
  members.set? item path

/-- Set keys of a table one after the other. -/
def addMembers? (read? : List Token → Option Item) (members : Members) :
    List (List Token) → Option Members
  | [] => some members
  | piece :: pieces => do addMembers? read? (← addMember? read? members piece) pieces

/-- A value, in which tables nest at most `depth` deep. -/
def value? : (depth : Nat) → List Token → Option Item
  | _, [.quoted text _] => some (.text text)
  | depth, tokens =>
    match between? .openBracket .closeBracket tokens, depth with
    | some inner, _ => if inner.all (· == .newline) then some .emptyArray else none
    | none, 0 => none
    | none, depth + 1 => do
      let inner ← between? .openBrace .closeBrace tokens
      let pieces := (splitOutside .comma 0 inner).map trimNewlines
      some (.table .inline (← addMembers? (value? depth) [] (withoutTrailing pieces)))

/-- How deep tables written as values may nest: a setting is a table of empty tables at most. -/
def nestingLimit : Nat := 2

/-- The table built so far, and the path of the one that lines add to. -/
structure Building where
  members : Members
  path : List (List Char)

/-- Read one line. -/
def Building.addLine? (building : Building) (line : List Token) : Option Building :=
  match line with
  | [] => some building
  | .openBracket :: _ => do
    let path ← key? (← between? .openBracket .closeBracket line)
    some ⟨← building.members.openTable? path, path⟩
  | _ => do
    let members ← building.members.change?
      (addMember? (value? nestingLimit) · line) building.path
    some { building with members }

/-- Read lines one after the other. -/
def Building.addLines? (building : Building) : List (List Token) → Option Building
  | [] => some building
  | line :: lines => do (← building.addLine? line).addLines? lines

/-- The table that a document describes. -/
def document? (text : List Char) : Option Members := do
  let tokens ← tokens? text
  let building ← Building.addLines? ⟨[], []⟩ (splitOutside .newline 0 tokens)
  some building.members

end DebugSweep.Toml
