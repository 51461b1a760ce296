import DebugSweep.Proofs.Strip.Rewriting
import DebugSweep.Proofs.Text.Lines
import DebugSweep.Strip.Strategy

/-!
# Stripping takes terminators away

Whatever a strategy replaces is a call with its parentheses and its terminator, and the marker holds
none of these and no newline. Under either strategy a text therefore only ever loses such bytes, and
for every statement reported as removed at least one of each (`Consumed`).

In particular a text is left as it is or has fewer terminators afterwards (`Reduced`). A text that
has once been changed is never reached again, however often and by whichever strategies it is
stripped, and no more than as many strips as it has terminators can change it.
-/

namespace DebugSweep.Strip

open Source Text

/-- The second text is the first one, or it has fewer terminators. -/
def Reduced (before after : Bytes) : Prop :=
  after = before ∨ after.count terminator < before.count terminator

namespace Reduced

theorem refl (text : Bytes) : Reduced text text := .inl rfl

/-- No terminator is added. -/
theorem count_le {before after : Bytes} (h : Reduced before after) :
    after.count terminator ≤ before.count terminator := by
  rcases h with rfl | h
  · exact Nat.le_refl _
  · exact Nat.le_of_lt h

theorem trans {first second third : Bytes} (h : Reduced first second)
    (h' : Reduced second third) : Reduced first third := by
  rcases h with rfl | h
  · exact h'
  · exact .inr (Nat.lt_of_le_of_lt h'.count_le h)

/-- A text that has been changed is not reached again. -/
theorem antisymm {first second : Bytes} (h : Reduced first second) (h' : Reduced second first) :
    second = first := by
  rcases h with h | h
  · exact h
  · exact absurd h'.count_le (Nat.not_le_of_lt h)

/-- The text has changed if and only if it has fewer terminators. -/
theorem ne_iff {before after : Bytes} (h : Reduced before after) :
    after ≠ before ↔ after.count terminator < before.count terminator := by
  constructor
  · exact h.resolve_left
  · rintro hcount rfl
    exact Nat.lt_irrefl _ hcount

end Reduced

/-- What stripping takes away when it reports so many statements as removed: parentheses and a
terminator for each of them, perhaps more of the same, and never a line. -/
structure Consumed (removed : Nat) (before after : Bytes) : Prop where
  openParen : after.count Byte.openParen + removed ≤ before.count Byte.openParen
  closeParen : after.count Byte.closeParen + removed ≤ before.count Byte.closeParen
  terminator : after.count terminator + removed ≤ before.count terminator
  newline : after.count Byte.newline ≤ before.count Byte.newline
  lines : (lines after).length ≤ (lines before).length
  reduced : Reduced before after

namespace Consumed

theorem refl (text : Bytes) : Consumed 0 text text :=
  ⟨Nat.le_refl _, Nat.le_refl _, Nat.le_refl _, Nat.le_refl _, Nat.le_refl _, .refl text⟩

theorem trans {m n : Nat} {first second third : Bytes} (h : Consumed m first second)
    (h' : Consumed n second third) : Consumed (m + n) first third where
  openParen := by
    have := h.openParen
    have := h'.openParen
    omega
  closeParen := by
    have := h.closeParen
    have := h'.closeParen
    omega
  terminator := by
    have := h.terminator
    have := h'.terminator
    omega
  newline := h'.newline.trans h.newline
  lines := h'.lines.trans h.lines
  reduced := h.reduced.trans h'.reduced

/-- Fewer statements may be reported than are taken away. -/
theorem of_le {m n : Nat} (hle : m ≤ n) {before after : Bytes} (h : Consumed n before after) :
    Consumed m before after where
  openParen := (Nat.add_le_add_left hle _).trans h.openParen
  closeParen := (Nat.add_le_add_left hle _).trans h.closeParen
  terminator := (Nat.add_le_add_left hle _).trans h.terminator
  newline := h.newline
  lines := h.lines
  reduced := h.reduced

/-- Where statements are reported the text has changed. -/
theorem ne_of_pos {removed : Nat} {before after : Bytes} (h : Consumed removed before after)
    (hremoved : 0 < removed) : after ≠ before := by
  have := h.terminator
  exact h.reduced.ne_iff.mpr (by omega)

end Consumed

/-- What a range holds that is replaced: a call, and its terminator at the end. -/
structure HoldsCall (range : Bytes) : Prop where
  openParen : Byte.openParen ∈ range
  closeParen : Byte.closeParen ∈ range
  getLast? : range.getLast? = some terminator

/-- Replacing calls takes away what they hold. -/
theorem RangesReplaced.consumed {count : Nat} {before after : Bytes}
    (h : RangesReplaced HoldsCall count before after) : Consumed count before after := by
  have hcount {b : UInt8} (hmarker : b ∉ marker) (hrange : ∀ range, HoldsCall range → b ∈ range) :
      after.count b + count ≤ before.count b := by
    have := h.count_add_mul_le hmarker fun range hcall =>
      List.count_pos_iff.mpr (hrange range hcall)
    simpa using this
  have hterminator : after.count Source.terminator + count ≤ before.count Source.terminator :=
    hcount (by decide) fun range hcall => List.mem_of_getLast? hcall.getLast?
  have hnewline : after.count Byte.newline ≤ before.count Byte.newline := by
    have hnone : after.count Byte.newline + 0 * count ≤ before.count Byte.newline :=
      h.count_add_mul_le (by decide) fun _ _ => Nat.zero_le _
    simpa using hnone
  have hnonempty (range : Bytes) (hcall : HoldsCall range) : range ≠ [] :=
    List.ne_nil_of_mem hcall.openParen
  have hends : endsLine before = true → endsLine after = true := by
    simp only [endsLine_eq_true_iff]
    rintro (hnil | hlast)
    · exact .inl ((h.eq_nil_iff hnonempty).mpr hnil)
    · obtain ⟨front, rfl⟩ := List.getLast?_eq_some_iff.mp hlast
      have hkept : [Byte.newline] <:+ after :=
        h.suffix (fun range hcall => hcall.getLast?) (by decide) ⟨front, rfl⟩
      obtain ⟨front', rfl⟩ := hkept
      exact .inr List.getLast?_concat
  refine ⟨hcount (by decide) fun range hcall => hcall.openParen,
    hcount (by decide) fun range hcall => hcall.closeParen, hterminator, hnewline,
    length_lines_le hnewline hends, ?_⟩
  rcases Nat.eq_zero_or_pos count with rfl | hpositive
  · exact .inl h.eq_of_zero
  · right
    omega

/-- An argument list that closes holds the parenthesis that closes it. -/
theorem closeParen_mem_of_argumentCount? {nested count : Nat} {lexemes : List Lexeme}
    (h : argumentCount? nested lexemes = some count) : .single Byte.closeParen ∈ lexemes := by
  induction lexemes generalizing nested count with
  | nil => cases h
  | cons lexeme rest ih =>
    rcases argumentCount?_cases lexeme with rfl | rfl | ⟨hopen, hclose⟩
    · rw [argumentCount?_openParen, Option.map_eq_some_iff] at h
      obtain ⟨_, hrest, -⟩ := h
      exact List.mem_cons_of_mem _ (ih hrest)
    · exact List.mem_cons_self
    · rw [argumentCount?_cons hopen hclose, Option.map_eq_some_iff] at h
      obtain ⟨_, hrest, -⟩ := h
      exact List.mem_cons_of_mem _ (ih hrest)

/-- A statement is a call with its terminator. -/
theorem holdsCall_of_isStatement {body : List Lexeme} (h : IsStatement body) :
    HoldsCall (textOf body) := by
  cases h with
  | @intro name arguments blanks hname harguments hblanks =>
    have hclose : Byte.closeParen ∈ textOf arguments :=
      List.mem_flatMap.mpr
        ⟨_, closeParen_mem_of_argumentCount? harguments, List.mem_singleton_self _⟩
    refine ⟨by simp [Lexeme.single], by simp [hclose], List.getLast?_eq_some_iff.mpr ?_⟩
    exact ⟨textOf (name :: .single Byte.openParen :: (arguments ++ blanks)),
      by simp [Lexeme.single]⟩

/-- A call that a pass takes is one with its terminator. -/
theorem holdsCall_of_isCall {pass : Pass} {range : Bytes} (h : pass.IsCall range) :
    HoldsCall range := by
  obtain ⟨inner, -, rfl⟩ := h
  refine ⟨by simp [Pass.callOf], by simp [Pass.callOf], List.getLast?_eq_some_iff.mpr ?_⟩
  exact ⟨pass.name ++ Byte.openParen :: (inner ++ [Byte.closeParen]), by simp [Pass.callOf]⟩

/-- The ranges that the scan replaces. -/
def IsStatementText (range : Bytes) : Prop := ∃ body, IsStatement body ∧ range = textOf body

/-- The statements of segments are replaced. -/
theorem replaced_strippedOf {before : List Lexeme} {segments : List Segment}
    (h : Placed before segments) (position : Nat) :
    RangesReplaced IsStatementText (spansOf position segments).length
      (textOf (lexemesOf segments)) (strippedOf segments) := by
  induction h generalizing position with
  | nil => exact .nil
  | @kept _ lexeme _ _ ih => exact (ih _).append_left lexeme.text
  | @statement _ body rest _ hstatement _ ih =>
    rw [lexemesOf_statement, textOf_append]
    exact .range ⟨body, hstatement, rfl⟩ (ih _)

/-- The scan replaces the statements of a text. -/
theorem replaced_strip_scan (text : Bytes) :
    RangesReplaced IsStatementText (strip .scan text).removed text (strip .scan text).text := by
  obtain ⟨segments, hlexemes, hsegmented, hfind, htext, -⟩ := exists_stripped text
  have hreplaced := replaced_strippedOf hsegmented.placed 0
  rwa [hlexemes, textOf_lexemes, ← htext, ← hfind] at hreplaced

/-- A pass takes calls away. -/
theorem consumed_calls (pass : Pass) (text : Bytes) :
    Consumed (pass.calls text).length text (pass.run text).text :=
  ((rewrites_run pass text).replaced.mono fun _ => holdsCall_of_isCall).consumed

/-- Passes take calls away one after the other. -/
theorem consumed_runPasses (passes : List Pass) (text : Bytes) :
    Consumed (runPasses passes text).removed text (runPasses passes text).text := by
  induction passes generalizing text with
  | nil => exact .refl text
  | cons pass passes ih =>
    rw [runPasses_cons]
    exact ((consumed_calls pass text).of_le (removed_run_le pass text)).trans (ih _)

/-- Under either strategy a text loses a call for every statement that is reported as removed. -/
theorem consumed_strip (strategy : Strategy) (text : Bytes) :
    Consumed (strip strategy text).removed text (strip strategy text).text := by
  cases strategy with
  | scan =>
    refine ((replaced_strip_scan text).mono ?_).consumed
    rintro _ ⟨body, hstatement, rfl⟩
    exact holdsCall_of_isStatement hstatement
  | legacy => exact consumed_runPasses passes text

/-- Under either strategy a text stays as it is or has fewer terminators afterwards. -/
theorem reduced_strip (strategy : Strategy) (text : Bytes) :
    Reduced text (strip strategy text).text :=
  (consumed_strip strategy text).reduced

/-- The scan changes a text if and only if it reports statements. -/
theorem strip_scan_ne_iff (text : Bytes) :
    (strip .scan text).text ≠ text ↔ 0 < (strip .scan text).removed := by
  constructor
  · intro hchanged
    by_contra hnone
    have hfound : findStatements text = [] :=
      List.length_eq_zero_iff.mp (Nat.eq_zero_of_not_pos hnone)
    refine hchanged ?_
    rw [strip, hfound]
    rfl
  · exact (consumed_strip .scan text).ne_of_pos

/-- How many of the strips that a text goes through one after the other change it. -/
def changes : List Strategy → Bytes → Nat
  | [], _ => 0
  | strategy :: strategies, text =>
    (if (strip strategy text).text = text then 0 else 1) +
      changes strategies (strip strategy text).text

/-- Every change takes a terminator, so there are no more changes than terminators. -/
theorem changes_le (strategies : List Strategy) (text : Bytes) :
    changes strategies text ≤ text.count terminator := by
  induction strategies generalizing text with
  | nil => exact Nat.zero_le _
  | cons strategy strategies ih =>
    have hrest := ih (strip strategy text).text
    have hreduced := reduced_strip strategy text
    rw [changes]
    split
    · rename_i hsame
      rw [hsame] at hrest ⊢
      omega
    · rename_i hchanged
      have := hreduced.ne_iff.mp hchanged
      omega

end DebugSweep.Strip
