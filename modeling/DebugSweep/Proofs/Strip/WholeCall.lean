import DebugSweep.Proofs.Source.Written
import DebugSweep.Proofs.Strip.Concatenation

/-!
# Calls are removed whole

A call statement whose arguments are written by the rules of the language is found where the search
stands at it and a statement can begin, and the range found is the whole of it. What follows the
call is read as a text of its own.
-/

namespace DebugSweep

namespace Source

/-- A call whose argument list closes before blanks and the terminator is a statement. -/
theorem candidate_of_closing? {name inner blanks rest : Bytes} (hname : name ∈ callNames)
    (hclose : closing? [.arguments 0] false (inner ++ (blanks ++ terminator :: rest)) =
      some inner.length)
    (hblanks : ∀ b ∈ blanks, Byte.isBlank b = true) :
    candidate (name ++ Byte.openParen :: (inner ++ (blanks ++ terminator :: rest))) =
      .statement (name.length + 1 + inner.length + blanks.length + 1) := by
  have hinner : (name ++ Byte.openParen :: (inner ++ (blanks ++ terminator :: rest))).drop
      (name.length + 1) = inner ++ (blanks ++ terminator :: rest) := by
    simp
  have hterminator : Byte.isBlank terminator = false := rfl
  have hspace : (blanks ++ terminator :: rest).takeWhile Byte.isBlank = blanks := by
    rw [List.takeWhile_append_of_pos hblanks, List.takeWhile_cons, hterminator]
    exact List.append_nil blanks
  rw [candidate, callOpening?_append hname]
  simp only [closeLength?_eq_map, hinner, List.take_zero, wordAfter_nil, List.drop_zero, hclose,
    Option.map_some, Nat.add_zero, ← List.drop_drop, List.drop_left, hspace, List.head?_cons,
    if_true]

/-- A call statement is taken for a statement of its length, whatever follows. -/
theorem CallStatement.candidate_append {call : Bytes} (h : CallStatement call) (rest : Bytes) :
    candidate (call ++ rest) = .statement call.length := by
  cases h with
  | @intro name arguments blanks hname harguments hblanks =>
    have hclose : closing? [.arguments 0] false
        ((arguments ++ [Byte.closeParen]) ++ (blanks ++ terminator :: rest)) =
          some (arguments ++ [Byte.closeParen]).length := by
      rw [List.append_assoc, List.singleton_append, harguments.closing?_arguments,
        List.length_append, List.length_singleton]
    have hcandidate := candidate_of_closing? hname hclose hblanks
    simp only [List.append_assoc, List.cons_append, List.nil_append, List.length_append,
      List.length_cons, List.length_nil] at hcandidate ⊢
    rw [hcandidate]
    congr 1
    omega

/-- No comment or literal opens at the name of a call. -/
theorem triviaLength?_callName {name : Bytes} (hname : name ∈ callNames) (inWord : Bool)
    (rest : Bytes) : triviaLength? inWord (name ++ rest) = none := by
  simp only [callNames, List.mem_cons, List.not_mem_nil, or_false] at hname
  rcases hname with rfl | rfl <;> rfl

/-- A call statement ends with the terminator, which belongs to no identifier. -/
theorem CallStatement.wordAfter {call : Bytes} (h : CallStatement call) (inWord : Bool) :
    wordAfter inWord call = false := by
  cases h with
  | intro => simp only [wordAfter_append, wordAfter_cons]; rfl

/-- Where a statement can begin, the search finds a statement as a whole and goes on behind it. -/
theorem statementsFrom_statement {inWord : Bool} {call rest : Bytes}
    (hcandidate : candidate (call ++ rest) = .statement call.length)
    (htrivia : triviaLength? inWord (call ++ rest) = none) (hnonempty : call ≠ [])
    (position : Nat) :
    statementsFrom position 0 true inWord (call ++ rest) =
      ⟨position, position + call.length⟩ ::
        statementsFrom (position + call.length) 0 true (wordAfter inWord call) rest := by
  obtain ⟨b, tail, rfl⟩ := List.exists_cons_of_ne_nil hnonempty
  rw [List.cons_append] at hcandidate htrivia ⊢
  rw [statementsFrom_code htrivia, if_pos rfl, hcandidate]
  simp only [List.length_cons, Nat.add_sub_cancel, statementsFrom_skip, wordAfter_cons]
  rw [show position + 1 + tail.length = position + (tail.length + 1) by omega]

/-- Where a statement can begin, the search finds a call statement as a whole and goes on behind
it. -/
theorem CallStatement.statementsFrom_append {call : Bytes} (h : CallStatement call)
    (position : Nat) (inWord : Bool) (rest : Bytes) :
    statementsFrom position 0 true inWord (call ++ rest) =
      ⟨position, position + call.length⟩ ::
        statementsFrom (position + call.length) 0 true false rest := by
  have htrivia : triviaLength? inWord (call ++ rest) = none := by
    cases h with
    | intro hname =>
      rw [List.append_assoc]
      exact triviaLength?_callName hname inWord _
  have hnonempty : call ≠ [] := by
    cases h with
    | intro => simp
  rw [statementsFrom_statement (h.candidate_append rest) htrivia hnonempty, h.wordAfter]

end Source

namespace Strip

open Source

/-- Where a statement is found at the beginning of a text and the search goes on behind it as at the
beginning of another, the marker takes its place. -/
theorem strip_scan_statement {call rest : Bytes}
    (h : statementsFrom 0 0 true false (call ++ rest) =
      ⟨0, call.length⟩ :: statementsFrom call.length 0 true false rest) :
    findStatements (call ++ rest) =
        ⟨0, call.length⟩ :: (findStatements rest).map (Span.shift call.length) ∧
      strip .scan (call ++ rest) =
        ⟨marker ++ (strip .scan rest).text, (strip .scan rest).removed + 1⟩ := by
  have hfind : findStatements (call ++ rest) =
      ⟨0, call.length⟩ :: (findStatements rest).map (Span.shift call.length) := by
    rw [findStatements, h, findStatements, ← statementsFrom_add, Nat.add_zero]
  refine ⟨hfind, ?_⟩
  have hreplace := replaceFrom_shift call.length 0 (findStatements rest) rest
  rw [Nat.add_zero] at hreplace
  simp only [strip, hfind, replaceSpans, replaceFrom, List.length_cons, List.length_map,
    Nat.sub_zero, List.take_zero, List.nil_append, List.drop_left, hreplace]

/-- A call statement at the beginning of a text is replaced, and what follows it is stripped. -/
theorem strip_callStatement {call : Bytes} (h : CallStatement call) (rest : Bytes) :
    findStatements (call ++ rest) =
        ⟨0, call.length⟩ :: (findStatements rest).map (Span.shift call.length) ∧
      strip .scan (call ++ rest) =
        ⟨marker ++ (strip .scan rest).text, (strip .scan rest).removed + 1⟩ := by
  refine strip_scan_statement ?_
  rw [h.statementsFrom_append, Nat.zero_add]

/-- A call statement is removed whole: the search finds all of it wherever it stands at the call and
a statement can begin, and behind a text after which one can begin the marker takes its place, while
both what lies before it and what follows it are stripped as texts of their own. -/
theorem callStatement_removed_whole {call : Bytes} (h : CallStatement call) :
    (∀ (position : Nat) (inWord : Bool) (rest : Bytes),
      statementsFrom position 0 true inWord (call ++ rest) =
        ⟨position, position + call.length⟩ ::
          statementsFrom (position + call.length) 0 true false rest) ∧
    ∀ first : Bytes, Joinable first → ∀ rest : Bytes,
      findStatements (first ++ (call ++ rest)) =
          findStatements first ++ ⟨first.length, first.length + call.length⟩ ::
            (findStatements rest).map (Span.shift (first.length + call.length)) ∧
        strip .scan (first ++ (call ++ rest)) =
          ⟨(strip .scan first).text ++ (marker ++ (strip .scan rest).text),
            (strip .scan first).removed + ((strip .scan rest).removed + 1)⟩ := by
  refine ⟨h.statementsFrom_append, fun first hfirst rest => ?_⟩
  obtain ⟨hfind, hstrip⟩ := strip_callStatement h rest
  constructor
  · rw [hfirst.findStatements_append, hfind, List.map_cons, List.map_map, Span.shift_comp]
    rfl
  · rw [strip_scan_append hfirst, hstrip]

/-- Quotes inside an interpolation, a raw literal and an open parenthesis in a comment. -/
theorem callStatement_removed_whole_nested :
    CallStatement (ascii "print(\"$\x7bm[')']\x7d\" + r'\\' // (\n);") ∧
      strip .scan (ascii "\x7b" ++
        (ascii "print(\"$\x7bm[')']\x7d\" + r'\\' // (\n);" ++ ascii " f('print(1);'); \x7d")) =
        ⟨ascii "\x7b// Debug logging removed f('print(1);'); \x7d", 1⟩ := by
  have hparen : Written (.literal Byte.singleQuote false false) (ascii ")") :=
    .character (by decide) (by decide) (by decide) .nil
  have hkey : Written (.code Byte.openBrace) (ascii "m[')']") :=
    .plain rfl (.plain rfl (.literal rfl (by decide) hparen (by decide) (.plain rfl .nil)))
  have hvalue : Written (.literal Byte.doubleQuote false false) (ascii "$\x7bm[')']\x7d") :=
    .interpolation hkey .nil
  have hbackslash : Written (.literal Byte.singleQuote false true) (ascii "\\") :=
    .character (by decide) (by decide) (by decide) .nil
  have hcomment : Written (.code 0x20) (ascii "// (\n") :=
    .lineComment (show Byte.newline ∉ ascii " (" by decide) .nil
  have hraw : Written (.code 0x20) (ascii "r'\\' // (\n") :=
    .rawLiteral rfl rfl hbackslash (by decide) (.plain rfl hcomment)
  have harguments : Written (.code Byte.openParen) (ascii "\"$\x7bm[')']\x7d\" + r'\\' // (\n") :=
    .literal rfl (by decide) hvalue (by decide) (.plain rfl (.plain rfl (.plain rfl hraw)))
  have hcall : CallStatement (ascii "print(\"$\x7bm[')']\x7d\" + r'\\' // (\n);") :=
    .intro (List.mem_cons_self) harguments (List.forall_mem_nil _)
  refine ⟨hcall, ?_⟩
  have hfirst : Joinable (ascii "\x7b") := by
    refine ⟨by rfl, ?_⟩
    rintro lexeme ⟨⟩
    decide
  have hafter : strip .scan (ascii " f('print(1);'); \x7d") =
      ⟨ascii " f('print(1);'); \x7d", 0⟩ := by rfl
  have hbefore : strip .scan (ascii "\x7b") = ⟨ascii "\x7b", 0⟩ := by rfl
  have hremoved := ((callStatement_removed_whole hcall).2 _ hfirst
    (ascii " f('print(1);'); \x7d")).2
  rw [hafter, hbefore] at hremoved
  exact hremoved

end Strip

end DebugSweep
