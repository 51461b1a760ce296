import Mathlib.Data.List.Infix
import DebugSweep.Json.Value

/-!
# The parts of a written value

What is written of an item or of the value of a member stands as a whole in what is written of the
array or the object, only deeper.
-/

namespace DebugSweep.Json

/-- An item is written among those that follow another one. -/
theorem infix_itemsAfter {item : Json} {items : List Json} (h : item ∈ items) (level : Nat) :
    item.characters level <:+: itemsAfter level items := by
  induction items with
  | nil => cases h
  | cons first items ih =>
    rw [itemsAfter]
    rcases List.mem_cons.mp h with rfl | hitems
    · exact ⟨',' :: newline level, itemsAfter level items, by simp⟩
    · exact (ih hitems).trans ((List.suffix_append _ _).trans (List.suffix_cons _ _)).isInfix

/-- An item is written in its array. -/
theorem infix_array {item : Json} {items : List Json} (h : item ∈ items) (level : Nat) :
    item.characters (level + 1) <:+: (array items).characters level := by
  cases items with
  | nil => cases h
  | cons first items =>
    rw [characters]
    rcases List.mem_cons.mp h with rfl | hitems
    · exact ⟨'[' :: newline (level + 1), itemsAfter (level + 1) items ++ newline level ++ [']'],
        by simp⟩
    · obtain ⟨before, after, hafter⟩ := infix_itemsAfter hitems (level + 1)
      exact ⟨'[' :: (newline (level + 1) ++ first.characters (level + 1) ++ before),
        after ++ newline level ++ [']'], by simp [← hafter]⟩

/-- The value of a member is written among the members that follow another one. -/
theorem infix_membersAfter {key : String} {value : Json} {members : List (String × Json)}
    (h : (key, value) ∈ members) (level : Nat) :
    value.characters level <:+: membersAfter level members := by
  induction members with
  | nil => cases h
  | cons first members ih =>
    rw [membersAfter]
    rcases List.mem_cons.mp h with rfl | hmembers
    · exact ⟨',' :: (newline level ++ quote key ++ [':', ' ']), membersAfter level members,
        by simp⟩
    · exact (ih hmembers).trans ((List.suffix_append _ _).trans (List.suffix_cons _ _)).isInfix

/-- The value of a member is written in its object. -/
theorem infix_object {key : String} {value : Json} {members : List (String × Json)}
    (h : (key, value) ∈ members) (level : Nat) :
    value.characters (level + 1) <:+: (object members).characters level := by
  cases members with
  | nil => cases h
  | cons first members =>
    rw [characters]
    rcases List.mem_cons.mp h with rfl | hmembers
    · exact ⟨'\x7b' :: (newline (level + 1) ++ quote key ++ [':', ' ']),
        membersAfter (level + 1) members ++ newline level ++ ['\x7d'], by simp⟩
    · obtain ⟨before, after, hafter⟩ := infix_membersAfter hmembers (level + 1)
      exact ⟨'\x7b' :: (newline (level + 1) ++ quote first.1 ++ [':', ' '] ++
          first.2.characters (level + 1) ++ before),
        after ++ newline level ++ ['\x7d'], by simp [← hafter]⟩

end DebugSweep.Json
