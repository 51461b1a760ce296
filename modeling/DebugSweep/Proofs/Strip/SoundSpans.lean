import DebugSweep.Proofs.Cursor.Statements
import DebugSweep.Proofs.Strip.Validity

/-!
# The statements of a text can be cut out of it

The statements that are found in UTF-8 are ranges of the text, one behind the other, that are cut
out between characters; each of them is a call with its terminator that does not begin inside an
identifier (`SoundSpan`). So nothing goes wrong where a text is read by offsets and copied slice by
slice: neither the lexers nor the search nor the copying leave the text or cut a character, and no
count falls below zero.
-/

namespace DebugSweep.Source

/-- No byte of an identifier stands directly before one that begins a statement. -/
theorem Lexeme.Heads.isWord_getLast? {inWord : Bool} {lexeme : Lexeme} {before : List Lexeme}
    {b : UInt8} {rest : Bytes} (h : lexeme.Heads inWord (b :: rest))
    (hstart : canBeginAfter (lexeme :: before) = true) (hb : Byte.isWord b = true) {c : UInt8}
    (hlast : lexeme.text.getLast? = some c) : Byte.isWord c = false := by
  by_cases hkind : lexeme.kind = .comment
  · cases h with
    | @comment text _ hslash htrivia =>
      have hnewline : b ≠ Byte.newline := by rintro rfl; exact absurd hb (by decide)
      obtain ⟨d, text, rfl⟩ :=
        List.exists_cons_of_ne_nil (Heads.text_ne_nil (.comment hslash htrivia))
      cases hslash
      obtain ⟨tail, rfl, hclose⟩ := exists_blockComment htrivia hnewline
      have htext : Byte.slash :: Byte.star :: tail = [Byte.slash, Byte.star] ++ tail := rfl
      rw [htext, List.getLast?_append, getLast?_blockComment hclose, Option.some_or,
        Option.some.injEq] at hlast
      rw [← hlast]
      rfl
    | literal hslash htrivia => cases hkind
    | word hword hinside hend htrivia => cases hkind
    | byte hword htrivia => cases hkind
  · obtain ⟨d, rfl, hd⟩ := h.exists_single hkind hstart
    obtain rfl := Option.some.inj hlast
    exact isWord_of_isBlank_or_isBoundary hd

/-- An argument list ends with the parenthesis that closes it. -/
theorem exists_closeParen {nested : Nat} {arguments : List Lexeme}
    (h : argumentCount? nested arguments = some arguments.length) :
    ∃ inner, arguments = inner ++ [.single Byte.closeParen] := by
  induction arguments generalizing nested with
  | nil => cases h
  | cons lexeme rest ih =>
    have step {inner : Nat} (hrest : argumentCount? nested (lexeme :: rest) =
          (argumentCount? inner rest).map (· + 1)) :
        ∃ inner, lexeme :: rest = inner ++ [.single Byte.closeParen] := by
      rw [hrest, Option.map_eq_some_iff] at h
      obtain ⟨count, hcount, hlength⟩ := h
      obtain rfl : count = rest.length := by simpa using hlength
      obtain ⟨inner, rfl⟩ := ih hcount
      exact ⟨lexeme :: inner, rfl⟩
    rcases argumentCount?_cases lexeme with rfl | rfl | ⟨hopen, hclose⟩
    · exact step (argumentCount?_openParen _ _)
    · cases nested with
      | zero =>
        rw [argumentCount?_closeParen_zero, Option.some.injEq, List.length_cons] at h
        obtain rfl := List.eq_nil_of_length_eq_zero (by omega : rest.length = 0)
        exact ⟨[], rfl⟩
      | succ nested => exact step (argumentCount?_closeParen_succ _ _)
    · exact step (argumentCount?_cons hopen hclose _ _)

/-- A statement is a call name, parentheses, blanks and the terminator. -/
theorem IsStatement.exists_call {body : List Lexeme} (h : IsStatement body) :
    ∃ name ∈ callNames, ∃ inner blanks, (∀ b ∈ blanks, Byte.isBlank b = true) ∧
      textOf body = name ++ Byte.openParen ::
        (inner ++ Byte.closeParen :: (blanks ++ [terminator])) := by
  obtain @⟨_, _, blanks, hname, harguments, hblanks⟩ := h
  obtain ⟨name, hcall, rfl⟩ := Lexeme.isCallName_iff.mp hname
  obtain ⟨inner, rfl⟩ := exists_closeParen harguments
  refine ⟨name, hcall, textOf inner, textOf blanks, fun b hb => ?_, by simp [Lexeme.single]⟩
  obtain ⟨blank, hblank, hmem⟩ := List.mem_flatMap.mp hb
  have hall := hblanks blank hblank
  rw [Lexeme.isBlank, Bool.and_eq_true, List.all_eq_true] at hall
  exact hall.2 b hmem

/-- A statement among segments is a list of lexemes of its own, in a place where one can begin. -/
theorem Placed.exists_of_mem_spansOf {before : List Lexeme} {segments : List Segment}
    (h : Placed before segments) {position : Nat} {span : Span}
    (hspan : span ∈ spansOf position segments) :
    ∃ first body rest, lexemesOf segments = first ++ (body ++ rest) ∧
      canBeginAfter (first.reverse ++ before) = true ∧ IsStatement body ∧
      span.start = position + (textOf first).length ∧
      span.stop = span.start + (textOf body).length := by
  induction h generalizing position with
  | nil => cases hspan
  | @kept _ lexeme rest _ ih =>
    obtain ⟨first, body, behind, hlexemes, hstart, hbody, hfirst, hstop⟩ := ih hspan
    refine ⟨lexeme :: first, body, behind, ?_, ?_, hbody, ?_, hstop⟩
    · rw [lexemesOf_kept, hlexemes, List.cons_append]
    · rw [List.reverse_cons, List.append_assoc]
      exact hstart
    · rw [hfirst, textOf_cons, List.length_append, Nat.add_assoc]
  | @statement _ body rest hstart hstatement _ ih =>
    rcases List.mem_cons.mp hspan with rfl | hrest
    · exact ⟨[], body, lexemesOf rest, rfl, hstart, hstatement, rfl, rfl⟩
    · obtain ⟨first, other, behind, hlexemes, hbegin, hother, hfirst, hstop⟩ := ih hrest
      refine ⟨body ++ first, other, behind, ?_, ?_, hother, ?_, hstop⟩
      · rw [lexemesOf_statement, hlexemes, List.append_assoc]
      · rw [List.reverse_append, List.append_assoc]
        exact hbegin
      · rw [hfirst, textOf_append, List.length_append, Nat.add_assoc]

/-- The statements of segments stand one behind the other. -/
theorem pairwise_spansOf (position : Nat) (segments : List Segment) :
    (spansOf position segments).Pairwise fun first later => first.stop ≤ later.start := by
  induction segments generalizing position with
  | nil => exact .nil
  | cons segment rest ih =>
    cases segment with
    | kept lexeme => exact ih _
    | statement body =>
      exact List.pairwise_cons.mpr ⟨fun later hlater => (le_start_of_mem_spansOf hlater).1, ih _⟩

end DebugSweep.Source

namespace DebugSweep.Strip

open Source Utf8

/-- The span is that of a call with its terminator in the text: it lies within the text, is cut out
between characters, and does not begin inside an identifier. -/
structure SoundSpan (text : Bytes) (span : Span) : Prop where
  start_lt_stop : span.start < span.stop
  stop_le : span.stop ≤ text.length
  isBoundary_start : isBoundary text span.start = true
  isBoundary_stop : isBoundary text span.stop = true
  isValid_before : isValid (text.take span.start) = true
  isValid_inside : isValid ((text.take span.stop).drop span.start) = true
  isValid_behind : isValid (text.drop span.stop) = true
  apart : ∀ b, (text.take span.start).getLast? = some b → Byte.isWord b = false
  call : ∃ name ∈ callNames, ∃ inner blanks, (∀ b ∈ blanks, Byte.isBlank b = true) ∧
    (text.take span.stop).drop span.start =
      name ++ Byte.openParen :: (inner ++ Byte.closeParen :: (blanks ++ [terminator]))

/-- What stands before a statement does not end inside an identifier. -/
theorem isWord_getLast?_textOf {first body rest : List Lexeme}
    (hlexed : Lexed false (first ++ (body ++ rest))) (hstart : canBeginAfter first.reverse = true)
    (hbody : IsStatement body) {b : UInt8} (hlast : (textOf first).getLast? = some b) :
    Byte.isWord b = false := by
  rcases List.eq_nil_or_concat' first with rfl | ⟨before, lexeme, rfl⟩
  · cases hlast
  · rw [List.append_assoc, List.singleton_append] at hlexed
    have hhead := hlexed.of_append.head_tail.1
    obtain ⟨c, tail, htext, hc⟩ := hbody.exists_textOf
    rw [textOf_append, htext, List.cons_append] at hhead
    rw [List.reverse_append, List.reverse_singleton, List.singleton_append] at hstart
    obtain ⟨d, hd⟩ : ∃ d, lexeme.text.getLast? = some d :=
      Option.isSome_iff_exists.mp (List.getLast?_isSome.mpr hhead.text_ne_nil)
    rw [textOf_append, textOf_cons, textOf_nil, List.append_nil, List.getLast?_append, hd,
      Option.some_or, Option.some.injEq] at hlast
    exact hlast ▸ hhead.isWord_getLast? hstart hc hd

/-- The lexemes of a statement span a range of the text that can be cut out. -/
theorem soundSpan_of_isStatement {first body rest : List Lexeme}
    (hlexed : Lexed false (first ++ (body ++ rest)))
    (hvalid : isValid (textOf (first ++ (body ++ rest))) = true)
    (hstart : canBeginAfter first.reverse = true) (hbody : IsStatement body) :
    SoundSpan (textOf (first ++ (body ++ rest)))
      ⟨(textOf first).length, (textOf first).length + (textOf body).length⟩ := by
  have hends : IsAsciiEnded (textOf body) := IsStatementText.isAsciiEnded ⟨body, hbody, rfl⟩
  obtain ⟨b, tail, hb, hhead⟩ := hends.head
  obtain ⟨front, c, hc, hlast⟩ := hends.last
  have htext : textOf (first ++ (body ++ rest)) = textOf first ++ (textOf body ++ textOf rest) := by
    rw [textOf_append, textOf_append]
  rw [htext] at hvalid ⊢
  have hparts := hvalid
  rw [isValid, hends.isValidFrom_append owesNoAscii_none, Bool.and_eq_true, Bool.and_eq_true]
    at hparts
  have hbefore : (textOf first ++ (textOf body ++ textOf rest)).take (textOf first).length =
      textOf first := List.take_left
  have hinside : ((textOf first ++ (textOf body ++ textOf rest)).take
      ((textOf first).length + (textOf body).length)).drop (textOf first).length = textOf body := by
    rw [← List.append_assoc, ← List.length_append, List.take_left, List.drop_left]
  have hbehind : (textOf first ++ (textOf body ++ textOf rest)).drop
      ((textOf first).length + (textOf body).length) = textOf rest := by
    rw [← List.append_assoc, ← List.length_append, List.drop_left]
  have hfirst : (textOf first ++ (textOf body ++ textOf rest)).drop (textOf first).length =
      b :: (tail ++ textOf rest) := by
    rw [List.drop_left, hhead, List.cons_append]
  have hstop : (textOf first ++ (textOf body ++ textOf rest)).drop
      ((textOf first).length + front.length) = c :: textOf rest := by
    rw [hlast, ← List.append_assoc, ← List.append_assoc, ← List.length_append, List.append_assoc,
      List.drop_left, List.singleton_append]
  refine {
    start_lt_stop := by simp [hhead]
    stop_le := by simp
    isBoundary_start := isBoundary_of_lt hfirst hb
    isBoundary_stop := ?_
    isValid_before := hbefore.symm ▸ hparts.1
    isValid_inside := hinside.symm ▸ hparts.2.1
    isValid_behind := hbehind.symm ▸ hparts.2.2
    apart := fun d hd => isWord_getLast?_textOf hlexed hstart hbody (hbefore ▸ hd)
    call := ?_ }
  · have hboundary := isBoundary_succ_of_lt hvalid hstop hc
    rwa [Nat.add_assoc, ← List.length_singleton, ← List.length_append, ← hlast] at hboundary
  · obtain ⟨name, hname, inner, blanks, hblanks, hcall⟩ := hbody.exists_call
    exact ⟨name, hname, inner, blanks, hblanks, hinside.trans hcall⟩

/-- The statements found in UTF-8 can be cut out of it. -/
theorem soundSpan_of_mem {text : Bytes} (hvalid : isValid text = true) {span : Span}
    (hspan : span ∈ findStatements text) : SoundSpan text span := by
  obtain ⟨segments, hlexemes, hsegmented, hfind⟩ := exists_segments text
  rw [hfind] at hspan
  obtain ⟨first, body, rest, hsplit, hstart, hbody, hfirst, hstop⟩ :=
    hsegmented.placed.exists_of_mem_spansOf hspan
  have hlexed := lexed_lexemes text
  have htext := textOf_lexemes text
  rw [← hlexemes, hsplit] at hlexed htext
  rw [List.append_nil] at hstart
  rw [Nat.zero_add] at hfirst
  obtain ⟨start, stop⟩ := span
  simp only at hfirst hstop
  subst hfirst hstop
  exact htext ▸ soundSpan_of_isStatement hlexed (htext.symm ▸ hvalid) hstart hbody

/-- The statements of a text stand one behind the other. -/
theorem pairwise_findStatements (text : Bytes) :
    (findStatements text).Pairwise fun first later => first.stop ≤ later.start := by
  obtain ⟨segments, -, -, hfind⟩ := exists_segments text
  rw [hfind]
  exact pairwise_spansOf 0 segments

/-- What lies before, between and behind ranges of a text, from an offset on. -/
def gaps (text : Bytes) (last : Nat) : List Span → List Bytes
  | [] => [text.drop last]
  | span :: spans => (text.take span.start).drop last :: gaps text span.stop spans

theorem gaps_ne_nil (text : Bytes) (last : Nat) (spans : List Span) : gaps text last spans ≠ [] := by
  cases spans <;> exact List.cons_ne_nil _ _

/-- Replacing goes on behind the first range. -/
theorem replaceFrom_drop_cons {text : Bytes} {last : Nat} {span : Span} {spans : List Span}
    (hstart : last ≤ span.start) (hstop : span.start ≤ span.stop) :
    replaceFrom last (span :: spans) (text.drop last) =
      (text.take span.start).drop last ++
        (marker ++ replaceFrom span.stop spans (text.drop span.stop)) := by
  have hbehind : (text.drop last).drop (span.stop - last) = text.drop span.stop := by
    rw [List.drop_drop, Nat.add_sub_of_le (Nat.le_trans hstart hstop)]
  rw [replaceFrom, hbehind, List.drop_take]

/-- The marker is put between what lies between the ranges. -/
theorem replaceFrom_eq_intercalate (text : Bytes) {last : Nat} {spans : List Span}
    (hlast : ∀ span ∈ spans, last ≤ span.start)
    (hspans : spans.Pairwise fun first later => first.stop ≤ later.start)
    (hordered : ∀ span ∈ spans, span.start ≤ span.stop) :
    replaceFrom last spans (text.drop last) = marker.intercalate (gaps text last spans) := by
  induction spans generalizing last with
  | nil => simp [replaceFrom, gaps, List.intercalate]
  | cons span spans ih =>
    have hstart := hlast span List.mem_cons_self
    have hstop := hordered span List.mem_cons_self
    rw [List.pairwise_cons] at hspans
    rw [replaceFrom_drop_cons hstart hstop, gaps,
      List.intercalate_cons_of_ne_nil (gaps_ne_nil _ _ _), List.append_assoc,
      ih hspans.1 hspans.2 fun later hlater => hordered later (List.mem_cons_of_mem _ hlater)]

/-- Between boundaries the ranges of a text are replaced slice by slice. -/
theorem copyFrom_eq {text : Bytes} {last : Nat} {spans : List Span}
    (hle : last ≤ text.length) (hboundary : Utf8.isBoundary text last = true)
    (hlast : ∀ span ∈ spans, last ≤ span.start)
    (hspans : spans.Pairwise fun first later => first.stop ≤ later.start)
    (hsound : ∀ span ∈ spans, SoundSpan text span) :
    Cursor.copyFrom text last spans = .ok (replaceFrom last spans (text.drop last)) := by
  induction spans generalizing last with
  | nil =>
    rw [Cursor.copyFrom, Cursor.slice_eq hle (Nat.le_refl _) hboundary (isBoundary_ends text).2,
      List.take_length, replaceFrom]
  | cons span spans ih =>
    have hspan := hsound span List.mem_cons_self
    have hstart := hlast span List.mem_cons_self
    have hstop := hspan.start_lt_stop
    have hinside := hspan.stop_le
    rw [List.pairwise_cons] at hspans
    have hrest := ih hinside hspan.isBoundary_stop hspans.1 hspans.2
      fun later hlater => hsound later (List.mem_cons_of_mem _ hlater)
    rw [Cursor.copyFrom, Cursor.slice_eq hstart (by omega) hboundary hspan.isBoundary_start]
    simp only [Cursor.ok_bind, hrest, Cursor.pure_eq_ok]
    rw [replaceFrom_drop_cons hstart (Nat.le_of_lt hstop)]

/-- On UTF-8 nothing goes wrong where a text is searched and copied by offsets: no byte is read and
nothing is cut outside the text, no character is cut, no count falls below zero, and the search comes
forward. The spans it finds are in order, apart and sound, and the stripped text is the text with
the marker in the place of exactly these, which is UTF-8 again. -/
theorem strip_scan_safe {text : Bytes} (hvalid : isValid text = true) :
    Cursor.findStatements text = .ok (findStatements text) ∧
    Cursor.strip text = .ok (strip .scan text) ∧
    (findStatements text).Pairwise (fun first later =>
      first.start < later.start ∧ first.stop ≤ later.start) ∧
    (∀ span ∈ findStatements text, SoundSpan text span) ∧
    (strip .scan text).text = marker.intercalate (gaps text 0 (findStatements text)) ∧
    isValid (strip .scan text).text = true := by
  have hfind := Cursor.findStatements_eq hvalid
  have hsound (span : Span) (hspan : span ∈ findStatements text) : SoundSpan text span :=
    soundSpan_of_mem hvalid hspan
  have hspans := pairwise_findStatements text
  have hcopy := copyFrom_eq (Nat.zero_le _) (isBoundary_ends text).1 (fun _ _ => Nat.zero_le _)
    hspans hsound
  refine ⟨hfind, ?_, ?_, hsound, ?_, isValid_strip .scan hvalid⟩
  · rw [Cursor.strip, hfind]
    simp only [Cursor.ok_bind, hcopy]
    rfl
  · refine hspans.imp_of_mem fun hfirst _ hle => ⟨?_, hle⟩
    exact Nat.lt_of_lt_of_le (hsound _ hfirst).start_lt_stop hle
  · exact replaceFrom_eq_intercalate text (fun _ _ => Nat.zero_le _) hspans
      fun span hspan => Nat.le_of_lt (hsound span hspan).start_lt_stop

/-- Characters of more than one byte stand where a call could be cut: before and behind it, and
behind an escape, which passes over the first byte of one. -/
theorem strip_scan_safe_escaped :
    isValid (encode "é; print('\\é)é;') ; é".toList) = true ∧
      Cursor.strip (encode "é; print('\\é)é;') ; é".toList) =
        .ok ⟨encode "é; // Debug logging removed é".toList, 1⟩ := by
  have hvalid : isValid (encode "é; print('\\é)é;') ; é".toList) = true := by decide +kernel
  refine ⟨hvalid, (strip_scan_safe hvalid).2.1.trans ?_⟩
  decide +kernel

end DebugSweep.Strip
