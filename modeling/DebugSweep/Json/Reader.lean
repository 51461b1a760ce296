import DebugSweep.Json.Token

/-!
# Reading JSON

The tokens of a text are read one after the other. Brackets that are open are kept with what has
been read in them, and each state of the reader holds what may follow in it: a value, the end of an
array or of an object, a key, a colon or a comma.
-/

namespace DebugSweep.Json

/-- What a JSON text says. An object keeps its members in the order they are written. -/
inductive Datum where
  | atom (atom : Atom)
  | string (text : String)
  | array (items : List Datum)
  | object (members : List (String × Datum))
  deriving Repr

/-- A bracket in which a value is being read, with what was read before it, last first. -/
inductive Frame where
  | array (items : List Datum)
  | object (members : List (String × Datum)) (key : String)
  deriving Repr

/-- A text that is being read, by what may follow. -/
inductive Reader where
  /-- A value. -/
  | value (frames : List Frame)
  /-- The first item or the end of an array. -/
  | firstItem (frames : List Frame)
  /-- A comma or the end of an array. -/
  | items (frames : List Frame) (items : List Datum)
  /-- The first key or the end of an object. -/
  | firstKey (frames : List Frame)
  /-- A key. -/
  | key (frames : List Frame) (members : List (String × Datum))
  /-- A colon. -/
  | colon (frames : List Frame) (members : List (String × Datum)) (key : String)
  /-- A comma or the end of an object. -/
  | members (frames : List Frame) (members : List (String × Datum))
  /-- Nothing. -/
  | done (datum : Datum)
  deriving Repr

namespace Reader

/-- The reader after a value, which is the text or stands in the innermost bracket. -/
def complete : List Frame → Datum → Reader
  | [], datum => .done datum
  | .array read :: frames, datum => .items frames (datum :: read)
  | .object read name :: frames, datum => .members frames ((name, datum) :: read)

/-- The reader after the first token of a value. -/
def begin? (frames : List Frame) : Token → Option Reader
  | .atom atom => some (complete frames (.atom atom))
  | .string text => some (complete frames (.string text))
  | .openArray => some (.firstItem frames)
  | .openObject => some (.firstKey frames)
  | _ => none

/-- The reader after one more token. -/
def step : Reader → Token → Option Reader
  | .value frames, token => begin? frames token
  | .firstItem frames, .closeArray => some (complete frames (.array []))
  | .firstItem frames, token => begin? (.array [] :: frames) token
  | .items frames read, .comma => some (.value (.array read :: frames))
  | .items frames read, .closeArray => some (complete frames (.array read.reverse))
  | .firstKey frames, .closeObject => some (complete frames (.object []))
  | .firstKey frames, .string name => some (.colon frames [] name)
  | .key frames read, .string name => some (.colon frames read name)
  | .colon frames read name, .colon => some (.value (.object read name :: frames))
  | .members frames read, .comma => some (.key frames read)
  | .members frames read, .closeObject => some (complete frames (.object read.reverse))
  | _, _ => none

/-- What a text that has been read to its end says. -/
def datum? : Reader → Option Datum
  | .done datum => some datum
  | _ => none

end Reader

/-- What a JSON text says. -/
def read? (text : String) : Option Datum := do
  let tokens ← tokens? text.toList
  let reader ← tokens.foldlM Reader.step (.value [])
  reader.datum?

namespace Datum

/-- The value of the first member with a key. -/
def member? (key : String) : Datum → Option Datum
  | .object members => members.lookup key
  | _ => none

/-- The items of an array. -/
def items? : Datum → Option (List Datum)
  | .array items => some items
  | _ => none

/-- The characters of a string. -/
def text? : Datum → Option String
  | .string text => some text
  | _ => none

/-- The truth of a truth value. -/
def bool? : Datum → Option Bool
  | .atom (.bool value) => some value
  | _ => none

/-- The natural number that a number is, written without a fraction. -/
def natural? : Datum → Option Nat
  | .atom (.number ⟨.ofNat coefficient, .ofNat exponent⟩) =>
    some (coefficient * Nat.pow 10 exponent)
  | _ => none

end Datum

end DebugSweep.Json
