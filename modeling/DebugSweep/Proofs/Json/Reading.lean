import DebugSweep.Json.Reader
import DebugSweep.Proofs.Json.Cutting

/-!
# A written value is read back

The tokens of a value complete it, in whatever brackets it stands, so reading what is written gives
back what was to be written (`read?_write`).
-/

namespace DebugSweep.Json

mutual

/-- What is to be read from what is written of a value. -/
def datum : Json → Datum
  | .bool value => .atom (.bool value)
  | .number value => .atom (.number ⟨value, 0⟩)
  | .string text => .string text
  | .array items => .array (itemData items)
  | .object members => .object (memberData members)

/-- The data of the items of an array. -/
def itemData : List Json → List Datum
  | [] => []
  | item :: items => item.datum :: itemData items

/-- The data of the members of an object. -/
def memberData : List (String × Json) → List (String × Datum)
  | [] => []
  | (key, value) :: members => (key, value.datum) :: memberData members

end

@[simp] theorem bool?_datum (value : Bool) : (bool value).datum.bool? = some value := rfl

@[simp] theorem text?_datum (text : String) : (string text).datum.text? = some text := rfl

@[simp] theorem items?_datum (items : List Json) :
    (array items).datum.items? = some (itemData items) := rfl

/-- A number is read back from its digits. -/
@[simp] theorem natural?_datum (value : Nat) : (number value).datum.natural? = some value :=
  congrArg some (Nat.mul_one value)

/-- A member of what is read is what is read of the member. -/
theorem member?_datum (members : List (String × Json)) (key : String) :
    (object members).datum.member? key = (members.lookup key).map datum := by
  rw [datum, Datum.member?]
  induction members with
  | nil => rfl
  | cons member members ih =>
    obtain ⟨name, value⟩ := member
    rw [memberData, List.lookup_cons, List.lookup_cons]
    cases key == name with
    | true => rfl
    | false => exact ih

/-- No value begins as an array ends. -/
theorem step_firstItem (frames : List Frame) {token : Token} (h : token ≠ .closeArray) :
    Reader.step (.firstItem frames) token = Reader.step (.value (.array [] :: frames)) token := by
  cases token with
  | closeArray => exact absurd rfl h
  | _ => rfl

/-- A value begins with a token that ends no array. -/
theorem exists_tokens_eq_cons (value : Json) :
    ∃ token rest, value.tokens = token :: rest ∧ token ≠ .closeArray := by
  cases value with
  | bool value => exact ⟨_, _, rfl, Token.noConfusion⟩
  | number value => exact ⟨_, _, rfl, Token.noConfusion⟩
  | string text => exact ⟨_, _, rfl, Token.noConfusion⟩
  | array items => cases items <;> exact ⟨_, _, rfl, Token.noConfusion⟩
  | object members => cases members <;> exact ⟨_, _, rfl, Token.noConfusion⟩

/-- The first item of an array is read like any other value. -/
theorem foldlM_firstItem (frames : List Frame) (value : Json) :
    value.tokens.foldlM Reader.step (.firstItem frames) =
      value.tokens.foldlM Reader.step (.value (.array [] :: frames)) := by
  obtain ⟨token, rest, htokens, htoken⟩ := exists_tokens_eq_cons value
  rw [htokens, List.foldlM_cons, List.foldlM_cons, step_firstItem frames htoken]

mutual

/-- The tokens of a value complete it, in whatever brackets it stands. -/
theorem foldlM_tokens (frames : List Frame) : ∀ value : Json,
    value.tokens.foldlM Reader.step (.value frames) = some (.complete frames value.datum)
  | .bool _ => rfl
  | .number _ => rfl
  | .string _ => rfl
  | .array [] => rfl
  | .array (item :: items) => by
    have hitem := foldlM_tokens (.array [] :: frames) item
    have hitems := foldlM_itemTokens frames [item.datum] items
    have hopen : Reader.step (.value frames) .openArray = some (.firstItem frames) := rfl
    rw [tokens, List.foldlM_cons, hopen, Option.bind_eq_bind, Option.bind_some,
      List.foldlM_append, List.foldlM_append, foldlM_firstItem, hitem, Option.bind_eq_bind,
      Option.bind_some, Reader.complete, hitems]
    simp [Reader.step, datum, itemData]
  | .object [] => rfl
  | .object ((key, value) :: members) => by
    have hvalue := foldlM_tokens (.object [] key :: frames) value
    have hmembers := foldlM_memberTokens frames [(key, value.datum)] members
    have hkey (rest : List Token) :
        (.openObject :: .string key :: .colon :: rest).foldlM Reader.step (.value frames) =
          rest.foldlM Reader.step (.value (.object [] key :: frames)) := rfl
    rw [tokens, hkey, List.foldlM_append, List.foldlM_append, hvalue, Option.bind_eq_bind,
      Option.bind_some, Reader.complete, hmembers]
    simp [Reader.step, datum, memberData]

/-- The tokens of further items add them to those that have been read. -/
theorem foldlM_itemTokens (frames : List Frame) (read : List Datum) : ∀ items : List Json,
    (itemTokensAfter items).foldlM Reader.step (.items frames read) =
      some (.items frames ((itemData items).reverse ++ read))
  | [] => rfl
  | item :: items => by
    have hitem := foldlM_tokens (.array read :: frames) item
    have hitems := foldlM_itemTokens frames (item.datum :: read) items
    have hcomma : Reader.step (.items frames read) .comma =
        some (.value (.array read :: frames)) := rfl
    rw [itemTokensAfter, List.foldlM_cons, hcomma, Option.bind_eq_bind, Option.bind_some,
      List.foldlM_append, hitem, Option.bind_eq_bind, Option.bind_some, Reader.complete, hitems]
    simp [itemData]

/-- The tokens of further members add them to those that have been read. -/
theorem foldlM_memberTokens (frames : List Frame) (read : List (String × Datum)) :
    ∀ members : List (String × Json),
      (memberTokensAfter members).foldlM Reader.step (.members frames read) =
        some (.members frames ((memberData members).reverse ++ read))
  | [] => rfl
  | (key, value) :: members => by
    have hvalue := foldlM_tokens (.object read key :: frames) value
    have hmembers := foldlM_memberTokens frames ((key, value.datum) :: read) members
    have hkey (rest : List Token) :
        (.comma :: .string key :: .colon :: rest).foldlM Reader.step (.members frames read) =
          rest.foldlM Reader.step (.value (.object read key :: frames)) := rfl
    rw [memberTokensAfter, hkey, List.foldlM_append, hvalue, Option.bind_eq_bind,
      Option.bind_some, Reader.complete, hmembers]
    simp [memberData]

end

/-- What is written is read back. -/
theorem read?_write (value : Json) : read? value.write = some value.datum := by
  rw [read?, write, String.toList_ofList, tokens?_characters]
  simp [foldlM_tokens, Reader.complete, Reader.datum?]

/-- A text laid out in another way, and one that is none. -/
example :
    (read? "\x7b\"\\u0061\": [1.5e1 ]\n \x7d").bind (Datum.member? "a") >>= Datum.items? >>=
      List.mapM Datum.natural? = some [15] ∧ (read? "[1,]").isNone := by
  decide +kernel

end DebugSweep.Json
