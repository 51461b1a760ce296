import Mathlib.Data.List.TakeWhile
import DebugSweep.Source.Lexeme

/-!
# Candidates among lexemes

What `candidateOf` takes for a statement has the shape `IsStatement`: a call name, a balanced
argument list, blanks and the terminator. Since a statement is balanced, counting the parentheses
of an argument list passes over a statement inside it as over any other lexeme without
parentheses. Where a candidate can stand is read off the lexemes before it: `canBeginAfter` passes
over blanks and comments, and every other lexeme settles it.
-/

namespace DebugSweep.Source

namespace Lexeme

@[simp] theorem isByte_iff {b : UInt8} {lexeme : Lexeme} :
    lexeme.isByte b = true ↔ lexeme = single b := beq_iff_eq

@[simp] theorem isBlank_single (b : UInt8) : (single b).isBlank = Byte.isBlank b := by
  simp [isBlank, single]

/-- A lexeme that is not a single byte is none of them. -/
theorem isByte_of_kind {lexeme : Lexeme} (h : lexeme.kind ≠ .byte) (b : UInt8) :
    lexeme.isByte b = false := by
  rw [← Bool.not_eq_true, isByte_iff]
  rintro rfl
  exact h rfl

/-- The name of a call is an identifier of one of two spellings. -/
theorem isCallName_iff {lexeme : Lexeme} :
    lexeme.isCallName = true ↔ ∃ name ∈ callNames, lexeme = ⟨.word, name⟩ := by
  cases lexeme with
  | mk kind text =>
    simp only [isCallName, Bool.and_eq_true, beq_iff_eq, List.contains_iff_mem, mk.injEq]
    exact ⟨fun ⟨hkind, htext⟩ => ⟨text, htext, hkind, rfl⟩,
      fun ⟨name, hname, hkind, htext⟩ => ⟨hkind, htext ▸ hname⟩⟩

end Lexeme

/-- Lexemes other than parentheses are passed over. -/
theorem argumentCount?_cons {lexeme : Lexeme} (hopen : lexeme.isByte Byte.openParen = false)
    (hclose : lexeme.isByte Byte.closeParen = false) (nested : Nat) (rest : List Lexeme) :
    argumentCount? nested (lexeme :: rest) = (argumentCount? nested rest).map (· + 1) := by
  simp only [argumentCount?, hopen, hclose, Bool.false_eq_true, ↓reduceIte]

@[simp] theorem argumentCount?_openParen (nested : Nat) (rest : List Lexeme) :
    argumentCount? nested (.single Byte.openParen :: rest) =
      (argumentCount? (nested + 1) rest).map (· + 1) := by
  rfl

@[simp] theorem argumentCount?_closeParen_zero (rest : List Lexeme) :
    argumentCount? 0 (.single Byte.closeParen :: rest) = some 1 := by
  rfl

@[simp] theorem argumentCount?_closeParen_succ (nested : Nat) (rest : List Lexeme) :
    argumentCount? (nested + 1) (.single Byte.closeParen :: rest) =
      (argumentCount? nested rest).map (· + 1) := by
  rfl

/-- One lexeme of an argument list closes it, closes or opens a parenthesis inside it, or is passed
over. -/
theorem argumentCount?_cases (lexeme : Lexeme) :
    lexeme = .single Byte.openParen ∨ lexeme = .single Byte.closeParen ∨
      (lexeme.isByte Byte.openParen = false ∧ lexeme.isByte Byte.closeParen = false) := by
  by_cases hopen : lexeme.isByte Byte.openParen = true
  · exact .inl (Lexeme.isByte_iff.mp hopen)
  · by_cases hclose : lexeme.isByte Byte.closeParen = true
    · exact .inr (.inl (Lexeme.isByte_iff.mp hclose))
    · exact .inr (.inr ⟨Bool.eq_false_iff.mpr hopen, Bool.eq_false_iff.mpr hclose⟩)

/-- An argument list is a prefix of the lexemes that is balanced whatever follows it. -/
theorem exists_arguments {nested count : Nat} {lexemes : List Lexeme}
    (h : argumentCount? nested lexemes = some count) :
    ∃ arguments after, lexemes = arguments ++ after ∧ arguments.length = count ∧
      argumentCount? nested arguments = some count := by
  induction lexemes generalizing nested count with
  | nil => cases h
  | cons lexeme rest ih =>
    have step {inner : Nat} (hrest : argumentCount? nested (lexeme :: rest) =
          (argumentCount? inner rest).map (· + 1))
        (hshort : ∀ arguments, argumentCount? nested (lexeme :: arguments) =
          (argumentCount? inner arguments).map (· + 1)) :
        ∃ arguments after, lexeme :: rest = arguments ++ after ∧ arguments.length = count ∧
          argumentCount? nested arguments = some count := by
      rw [hrest, Option.map_eq_some_iff] at h
      obtain ⟨m, hm, rfl⟩ := h
      obtain ⟨arguments, after, rfl, rfl, hcount⟩ := ih hm
      exact ⟨lexeme :: arguments, after, rfl, rfl, by rw [hshort, hcount]; rfl⟩
    rcases argumentCount?_cases lexeme with rfl | rfl | ⟨hopen, hclose⟩
    · exact step (argumentCount?_openParen _ _) (argumentCount?_openParen _)
    · cases nested with
      | zero =>
        cases h
        exact ⟨[.single Byte.closeParen], rest, rfl, rfl, rfl⟩
      | succ nested =>
        exact step (argumentCount?_closeParen_succ _ _) (argumentCount?_closeParen_succ _)
    · exact step (argumentCount?_cons hopen hclose _ _) (argumentCount?_cons hopen hclose _)

/-- Inside further parentheses a balanced argument list is passed over. -/
theorem argumentCount?_append {nested : Nat} {arguments : List Lexeme}
    (h : argumentCount? nested arguments = some arguments.length) (outer : Nat)
    (after : List Lexeme) :
    argumentCount? (nested + 1 + outer) (arguments ++ after) =
      (argumentCount? outer after).map (· + arguments.length) := by
  induction arguments generalizing nested with
  | nil => cases h
  | cons lexeme rest ih =>
    have step {inner : Nat} (hrest : argumentCount? nested (lexeme :: rest) =
          (argumentCount? inner rest).map (· + 1))
        (hwhole : argumentCount? (nested + 1 + outer) (lexeme :: (rest ++ after)) =
          (argumentCount? (inner + 1 + outer) (rest ++ after)).map (· + 1)) :
        argumentCount? (nested + 1 + outer) (lexeme :: rest ++ after) =
          (argumentCount? outer after).map (· + (lexeme :: rest).length) := by
      rw [hrest, Option.map_eq_some_iff] at h
      obtain ⟨m, hm, hlength⟩ := h
      simp only [List.length_cons, Nat.add_right_cancel_iff] at hlength
      subst hlength
      rw [List.cons_append, hwhole, ih hm, Option.map_map]
      congr 1
    rcases argumentCount?_cases lexeme with rfl | rfl | ⟨hopen, hclose⟩
    · refine step (argumentCount?_openParen _ _) ?_
      rw [argumentCount?_openParen, show nested + 1 + outer + 1 = nested + 1 + 1 + outer by omega]
    · cases nested with
      | zero =>
        simp only [argumentCount?_closeParen_zero, Option.some.injEq, List.length_cons] at h
        have hrest : rest = [] := List.eq_nil_of_length_eq_zero (by omega)
        subst hrest
        rw [show 0 + 1 + outer = outer + 1 by omega]
        exact argumentCount?_closeParen_succ _ _
      | succ nested =>
        refine step (argumentCount?_closeParen_succ _ _) ?_
        rw [show nested + 1 + 1 + outer = nested + 1 + outer + 1 by omega,
          argumentCount?_closeParen_succ]
    · exact step (argumentCount?_cons hopen hclose _ _) (argumentCount?_cons hopen hclose _ _)

/-- The lexemes are those of one debug-output statement. -/
inductive IsStatement : List Lexeme → Prop
  | intro {name : Lexeme} {arguments blanks : List Lexeme} (hname : name.isCallName = true)
      (harguments : argumentCount? 0 arguments = some arguments.length)
      (hblanks : ∀ blank ∈ blanks, blank.isBlank = true) :
      IsStatement (name :: .single Byte.openParen ::
        (arguments ++ (blanks ++ [.single terminator])))

/-- A statement begins with a byte of an identifier. -/
theorem IsStatement.exists_textOf {body : List Lexeme} (h : IsStatement body) :
    ∃ b text, textOf body = b :: text ∧ Byte.isWord b = true := by
  cases h with
  | intro hname harguments hblanks =>
    obtain ⟨name, hcall, rfl⟩ := Lexeme.isCallName_iff.mp hname
    simp only [callNames, List.mem_cons, List.not_mem_nil, or_false] at hcall
    rcases hcall with rfl | rfl
    · exact ⟨_, _, rfl, rfl⟩
    · exact ⟨_, _, rfl, rfl⟩

/-- Lexemes end in the terminator where they begin, blanks aside, with it. -/
theorem exists_of_terminates {lexemes : List Lexeme} (h : terminates lexemes = true) :
    ∃ after, lexemes = lexemes.takeWhile Lexeme.isBlank ++ .single terminator :: after := by
  have hsplit := (List.takeWhile_append_dropWhile (p := Lexeme.isBlank) (l := lexemes)).symm
  cases hrest : lexemes.dropWhile Lexeme.isBlank with
  | nil => simp [terminates, hrest] at h
  | cons lexeme after =>
    rw [terminates, hrest, List.head?_cons, Option.any_some, Lexeme.isByte_iff] at h
    rw [hrest, h] at hsplit
    exact ⟨after, hsplit⟩

/-- What is taken for a statement of `count` lexemes is one. -/
theorem exists_statement {lexemes : List Lexeme} {count : Nat}
    (h : candidateOf lexemes = .statement count) :
    ∃ body after, lexemes = body ++ after ∧ body.length = count ∧ IsStatement body := by
  unfold candidateOf at h
  split at h
  · rename_i name opening rest
    split at h
    · rename_i hcall
      rw [Bool.and_eq_true, Lexeme.isByte_iff] at hcall
      obtain ⟨hname, rfl⟩ := hcall
      split at h
      · cases h
      · rename_i closed hclosed
        obtain ⟨arguments, after, rfl, rfl, hcount⟩ := exists_arguments hclosed
        rw [List.drop_left] at h
        simp only at h
        split at h
        · rename_i hterminates
          cases h
          obtain ⟨tail, htail⟩ := exists_of_terminates hterminates
          have hblanks : ∀ blank ∈ after.takeWhile Lexeme.isBlank, blank.isBlank = true :=
            fun blank hblank => List.mem_takeWhile_imp hblank
          refine ⟨_, tail, ?_, ?_, .intro hname hcount hblanks⟩
          · simp only [List.cons_append, List.append_assoc, List.nil_append, ← htail]
          · simp only [List.length_cons, List.length_append, List.length_nil]
            omega
        · cases h
    · cases h
  · cases h

/-- A blank lexeme is no parenthesis. -/
theorem Lexeme.isByte_of_isBlank {lexeme : Lexeme} (h : lexeme.isBlank = true) {b : UInt8}
    (hb : Byte.isBlank b = false) : lexeme.isByte b = false := by
  rw [← Bool.not_eq_true, isByte_iff]
  rintro rfl
  simp [isBlank, single, hb] at h

/-- Counting parentheses passes over lexemes none of which is a parenthesis. -/
theorem argumentCount?_append_of_forall {passed : List Lexeme}
    (h : ∀ lexeme ∈ passed,
      lexeme.isByte Byte.openParen = false ∧ lexeme.isByte Byte.closeParen = false)
    (nested : Nat) (after : List Lexeme) :
    argumentCount? nested (passed ++ after) =
      (argumentCount? nested after).map (· + passed.length) := by
  induction passed with
  | nil => simp
  | cons lexeme passed ih =>
    obtain ⟨hopen, hclose⟩ := h lexeme List.mem_cons_self
    rw [List.cons_append, argumentCount?_cons hopen hclose,
      ih fun other hother => h other (List.mem_cons_of_mem _ hother), Option.map_map]
    rfl

/-- An argument list passes over a statement as a whole. -/
theorem IsStatement.argumentCount?_append {body : List Lexeme} (h : IsStatement body)
    (nested : Nat) (after : List Lexeme) :
    argumentCount? nested (body ++ after) =
      (argumentCount? nested after).map (· + body.length) := by
  cases h with
  | @intro name arguments blanks hname harguments hblanks =>
    obtain ⟨text, -, rfl⟩ := Lexeme.isCallName_iff.mp hname
    have hword (b : UInt8) : Lexeme.isByte b ⟨.word, text⟩ = false :=
      Lexeme.isByte_of_kind (by simp) b
    have htail : ∀ lexeme ∈ blanks ++ [.single terminator],
        lexeme.isByte Byte.openParen = false ∧ lexeme.isByte Byte.closeParen = false := by
      intro lexeme hlexeme
      rcases List.mem_append.mp hlexeme with hblank | hterminator
      · exact ⟨Lexeme.isByte_of_isBlank (hblanks lexeme hblank) rfl,
          Lexeme.isByte_of_isBlank (hblanks lexeme hblank) rfl⟩
      · rw [List.mem_singleton] at hterminator
        subst hterminator
        exact ⟨rfl, rfl⟩
    rw [List.cons_append, List.cons_append, argumentCount?_cons (hword _) (hword _),
      argumentCount?_openParen, List.append_assoc, show nested + 1 = 0 + 1 + nested by omega,
      Source.argumentCount?_append harguments, argumentCount?_append_of_forall htail]
    simp only [Option.map_map, List.length_cons, List.length_append, List.length_nil]
    congr 1
    funext n
    simp only [Function.comp_apply]
    omega

/-- Looking back passes over blanks and comments only. -/
theorem canBeginAfter_cons (lexeme : Lexeme) (before : List Lexeme) :
    canBeginAfter (lexeme :: before) =
      if lexeme.isSignificant then lexeme.isBoundary else canBeginAfter before := by
  rw [canBeginAfter, List.find?_cons]
  cases lexeme.isSignificant <;> rfl

/-- A statement can begin after the terminator. -/
@[simp] theorem canBeginAfter_terminator (before : List Lexeme) :
    canBeginAfter (.single terminator :: before) = true := by
  rw [canBeginAfter_cons]
  rfl

/-- Comments do not matter for what can begin after them. -/
theorem canBeginAfter_comment (text : Bytes) (before : List Lexeme) :
    canBeginAfter (⟨.comment, text⟩ :: before) = canBeginAfter before := by
  rw [canBeginAfter_cons]
  rfl

/-- No statement can begin after a literal or an identifier. -/
theorem canBeginAfter_of_kind {lexeme : Lexeme} (hbyte : lexeme.kind ≠ .byte)
    (hcomment : lexeme.kind ≠ .comment) (before : List Lexeme) :
    canBeginAfter (lexeme :: before) = false := by
  have hblank : lexeme.isBlank = false := by
    rw [Lexeme.isBlank, beq_false_of_ne hbyte, Bool.false_and]
  have hsignificant : lexeme.isSignificant = true := by
    rw [Lexeme.isSignificant, hblank, bne_iff_ne.mpr hcomment]
    rfl
  rw [canBeginAfter_cons, if_pos hsignificant, Lexeme.isBoundary, Lexeme.isByte_of_kind hbyte,
    Lexeme.isByte_of_kind hbyte, Lexeme.isByte_of_kind hbyte]
  rfl

/-- After a single byte a statement can begin as the byte says. -/
theorem canBeginAfter_single (b : UInt8) (before : List Lexeme) :
    canBeginAfter (.single b :: before) =
      if Byte.isBlank b then canBeginAfter before else isBoundary b := by
  have hbyte (c : UInt8) : (Lexeme.single b).isByte c = (b == c) := by
    rw [Bool.eq_iff_iff, Lexeme.isByte_iff, beq_iff_eq]
    constructor
    · intro hsingle
      injection hsingle with _ htext
      exact (List.cons.inj htext).1
    · rintro rfl; rfl
  rw [canBeginAfter_cons, Lexeme.isBoundary, hbyte, hbyte, hbyte]
  simp only [Lexeme.isSignificant, Lexeme.isBlank, Lexeme.single, List.all_cons, List.all_nil,
    Bool.and_true, isBoundary]
  cases Byte.isBlank b <;> rfl

/-- After a statement another one can begin. -/
theorem IsStatement.canBeginAfter {body : List Lexeme} (h : IsStatement body)
    (before : List Lexeme) : canBeginAfter (body.reverse ++ before) = true := by
  cases h with
  | intro hname harguments hblanks => simp

/-- The argument list is closed, and `ends` says whether the terminator follows it. -/
def Closes (nested : Nat) (lexemes : List Lexeme) (ends : Bool) : Prop :=
  ∃ count, argumentCount? nested lexemes = some count ∧ terminates (lexemes.drop count) = ends

/-- An argument list is closed in one way. -/
theorem Closes.unique {nested : Nat} {lexemes : List Lexeme} {first second : Bool}
    (hfirst : Closes nested lexemes first) (hsecond : Closes nested lexemes second) :
    first = second := by
  obtain ⟨count, hcount, rfl⟩ := hfirst
  obtain ⟨other, hother, rfl⟩ := hsecond
  rw [hcount, Option.some.injEq] at hother
  rw [hother]

/-- Lexemes that the count passes over do not matter for how an argument list is closed. -/
theorem closes_append_iff {nested inner : Nat} {passed rest : List Lexeme}
    (h : argumentCount? nested (passed ++ rest) =
      (argumentCount? inner rest).map (· + passed.length)) {ends : Bool} :
    Closes nested (passed ++ rest) ends ↔ Closes inner rest ends := by
  have hdrop (count : Nat) : (passed ++ rest).drop (count + passed.length) = rest.drop count := by
    rw [Nat.add_comm, List.drop_length_add_append]
  constructor
  · rintro ⟨count, hcount, hends⟩
    rw [h, Option.map_eq_some_iff] at hcount
    obtain ⟨count, hcount, rfl⟩ := hcount
    exact ⟨count, hcount, by rwa [hdrop] at hends⟩
  · rintro ⟨count, hcount, hends⟩
    exact ⟨count + passed.length, by rw [h, hcount]; rfl, by rwa [hdrop]⟩

/-- A lexeme that is no parenthesis is passed over. -/
theorem closes_cons_iff {lexeme : Lexeme} (hopen : lexeme.isByte Byte.openParen = false)
    (hclose : lexeme.isByte Byte.closeParen = false) {nested : Nat} {rest : List Lexeme}
    {ends : Bool} : Closes nested (lexeme :: rest) ends ↔ Closes nested rest ends :=
  @closes_append_iff nested nested [lexeme] rest (argumentCount?_cons hopen hclose nested rest) ends

/-- One more parenthesis is open behind an opening one. -/
theorem closes_openParen_iff {nested : Nat} {rest : List Lexeme} {ends : Bool} :
    Closes nested (.single Byte.openParen :: rest) ends ↔ Closes (nested + 1) rest ends :=
  @closes_append_iff nested (nested + 1) [.single Byte.openParen] rest
    (argumentCount?_openParen nested rest) ends

/-- One parenthesis fewer is open behind a closing one. -/
theorem closes_closeParen_succ_iff {nested : Nat} {rest : List Lexeme} {ends : Bool} :
    Closes (nested + 1) (.single Byte.closeParen :: rest) ends ↔ Closes nested rest ends :=
  @closes_append_iff (nested + 1) nested [.single Byte.closeParen] rest
    (argumentCount?_closeParen_succ nested rest) ends

/-- The last closing parenthesis closes the argument list. -/
theorem closes_closeParen_zero_iff {rest : List Lexeme} {ends : Bool} :
    Closes 0 (.single Byte.closeParen :: rest) ends ↔ terminates rest = ends := by
  constructor
  · rintro ⟨count, hcount, hends⟩
    rw [argumentCount?_closeParen_zero, Option.some.injEq] at hcount
    subst hcount
    exact hends
  · intro hends
    exact ⟨1, argumentCount?_closeParen_zero rest, hends⟩

/-- A statement is passed over. -/
theorem IsStatement.closes_append_iff {body : List Lexeme} (h : IsStatement body) {nested : Nat}
    {rest : List Lexeme} {ends : Bool} :
    Closes nested (body ++ rest) ends ↔ Closes nested rest ends :=
  Source.closes_append_iff (h.argumentCount?_append nested rest)

/-- A call is a statement if and only if the terminator follows its argument list. -/
theorem candidateOf_eq_statement {lexemes : List Lexeme} {count : Nat}
    (h : candidateOf lexemes = .statement count) :
    ∃ name rest, lexemes = name :: .single Byte.openParen :: rest ∧ name.isCallName = true ∧
      Closes 0 rest true := by
  unfold candidateOf at h
  split at h
  · rename_i name opening rest
    split at h
    · rename_i hcall
      rw [Bool.and_eq_true, Lexeme.isByte_iff] at hcall
      obtain ⟨hname, rfl⟩ := hcall
      refine ⟨name, rest, rfl, hname, ?_⟩
      split at h
      · cases h
      · rename_i closed hclosed
        simp only at h
        split at h
        · exact ⟨closed, hclosed, by assumption⟩
        · cases h
    · cases h
  · cases h

/-- A call that has been closed is no statement if the terminator does not follow. -/
theorem closes_of_candidateOf_other {name : Lexeme} (hname : name.isCallName = true)
    {rest : List Lexeme} (h : candidateOf (name :: .single Byte.openParen :: rest) = .other) :
    Closes 0 rest false := by
  simp only [candidateOf, hname, Lexeme.isByte_iff.mpr, Bool.and_self, ↓reduceIte] at h
  split at h
  · cases h
  · rename_i closed hclosed
    split at h
    · cases h
    · rename_i hends
      exact ⟨closed, hclosed, Bool.not_eq_true _ ▸ hends⟩

/-- Lexemes end in the terminator after blanks. -/
theorem terminates_cons (lexeme : Lexeme) (rest : List Lexeme) :
    terminates (lexeme :: rest) =
      if lexeme.isBlank then terminates rest else lexeme.isByte terminator := by
  rw [terminates, List.dropWhile_cons]
  split
  · rfl
  · rfl

end DebugSweep.Source
