import DebugSweep.Text.Ascii

/-!
# UTF-8

Reading bytes as characters, one byte at a time. Between bytes it matters only whether a character
has begun, how many bytes it still owes, and which range the next of them may lie in; the ranges
leave out overlong forms, surrogates and values beyond the last code point.

`units` reads any bytes: each maximal sequence that begins no character, or begins one and breaks
off, is one unit without a character. `lossy` shows such a unit as the replacement character, and
`decode?` refuses it.
-/

namespace DebugSweep.Utf8

/-- A character that has begun. -/
structure Begun where
  /-- How many bytes are still owed. -/
  owed : Nat
  /-- The least next byte. -/
  low : UInt8
  /-- The greatest next byte. -/
  high : UInt8
  /-- The bits of the code point read so far. -/
  bits : Nat
  deriving DecidableEq, Repr

/-- What a byte does to the character it belongs to. -/
inductive Reading where
  /-- It completes the character. -/
  | complete (c : Char)
  /-- More bytes are owed. -/
  | begun (state : Begun)
  /-- It cannot stand here. -/
  | refused
  deriving DecidableEq, Repr

/-- A first byte. -/
def first (b : UInt8) : Reading :=
  if b < 0x80 then .complete (Char.ofNat b.toNat)
  else if b < 0xC2 then .refused
  else if b < 0xE0 then .begun ⟨1, 0x80, 0xBF, b.toNat - 0xC0⟩
  else if b < 0xF0 then
    .begun ⟨2, if b = 0xE0 then 0xA0 else 0x80, if b = 0xED then 0x9F else 0xBF, b.toNat - 0xE0⟩
  else if b < 0xF5 then
    .begun ⟨3, if b = 0xF0 then 0x90 else 0x80, if b = 0xF4 then 0x8F else 0xBF, b.toNat - 0xF0⟩
  else .refused

/-- A byte after the first. -/
def Begun.next (state : Begun) (b : UInt8) : Reading :=
  if state.low ≤ b ∧ b ≤ state.high then
    let bits := state.bits * 64 + (b.toNat - 0x80)
    if state.owed ≤ 1 then .complete (Char.ofNat bits)
    else .begun ⟨state.owed - 1, 0x80, 0xBF, bits⟩
  else .refused

/-- The characters of the bytes, with `none` for each maximal sequence that is no character. -/
def unitsFrom : Option Begun → Bytes → List (Option Char)
  | none, [] => []
  | some _, [] => [none]
  | none, b :: rest =>
    match first b with
    | .complete c => some c :: unitsFrom none rest
    | .begun state => unitsFrom (some state) rest
    | .refused => none :: unitsFrom none rest
  | some state, b :: rest =>
    match state.next b with
    | .complete c => some c :: unitsFrom none rest
    | .begun state => unitsFrom (some state) rest
    | .refused =>
      none ::
        match first b with
        | .complete c => some c :: unitsFrom none rest
        | .begun state => unitsFrom (some state) rest
        | .refused => none :: unitsFrom none rest

/-- The characters of the bytes, with `none` for each maximal sequence that is no character. -/
def units (bytes : Bytes) : List (Option Char) := unitsFrom none bytes

/-- Whether the bytes, read after a character has begun, complete it and hold only characters. -/
def isValidFrom : Option Begun → Bytes → Bool
  | state, [] => state.isNone
  | state, b :: rest =>
    match state.elim (first b) (·.next b) with
    | .complete _ => isValidFrom none rest
    | .begun state => isValidFrom (some state) rest
    | .refused => false

/-- Whether the bytes are UTF-8. -/
def isValid (bytes : Bytes) : Bool := isValidFrom none bytes

/-- Whether the bytes can be cut at an offset: at their ends, and before a byte that can begin a
character. -/
def isBoundary (bytes : Bytes) (i : Nat) : Bool :=
  match bytes[i]? with
  | none => i == bytes.length
  | some b => i == 0 || b < 0x80 || 0xC0 ≤ b

/-- The characters written by the bytes, if the bytes are UTF-8. -/
def decode? (bytes : Bytes) : Option (List Char) :=
  if isValid bytes then some ((units bytes).filterMap id) else none

/-- What stands for bytes that are no character. -/
def replacement : Char := '\uFFFD'

/-- The bytes as text, with the replacement character for each unit that is no character. -/
def lossy (bytes : Bytes) : String :=
  String.ofList ((units bytes).map (·.getD replacement))

/-- The bytes that write the characters. -/
def encode (characters : List Char) : Bytes := characters.flatMap String.utf8EncodeChar

/-- Every unit of UTF-8 bytes is a character. -/
theorem isValidFrom_eq_all_units (state : Option Begun) (bytes : Bytes) :
    isValidFrom state bytes = (unitsFrom state bytes).all Option.isSome := by
  induction bytes generalizing state with
  | nil => cases state <;> rfl
  | cons b rest ih =>
    cases state with
    | none =>
      simp only [isValidFrom, unitsFrom, Option.elim]
      cases first b <;> simp [ih]
    | some state =>
      simp only [isValidFrom, unitsFrom, Option.elim]
      cases state.next b <;> simp [ih]

end DebugSweep.Utf8
