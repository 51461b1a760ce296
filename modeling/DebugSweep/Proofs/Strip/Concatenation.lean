import DebugSweep.Proofs.Source.Concatenation
import DebugSweep.Proofs.Strip.Relexing

/-!
# Stripping texts put together

A source can be stripped in portions that are cut where a statement can begin: no portion can change
what is found in another.
-/

namespace DebugSweep.Strip

open Source

@[simp] theorem strippedOf_append (first second : List Segment) :
    strippedOf (first ++ second) = strippedOf first ++ strippedOf second := List.flatMap_append

/-- Stripping a text whose statements are those of segments. -/
theorem strip_scan_of_segments {text : Bytes} {segments : List Segment}
    (htext : textOf (lexemesOf segments) = text)
    (hfind : findStatements text = spansOf 0 segments) :
    strip .scan text = ⟨strippedOf segments, (spansOf 0 segments).length⟩ := by
  rw [strip, hfind, replaceSpans, ← htext, replaceFrom_spansOf]

/-- Stripping a joinable text and what follows it. -/
theorem strip_scan_append {first : Bytes} (h : Joinable first) (second : Bytes) :
    strip .scan (first ++ second) =
      ⟨(strip .scan first).text ++ (strip .scan second).text,
        (strip .scan first).removed + (strip .scan second).removed⟩ := by
  obtain ⟨before, after, hbefore, hafter, hfirst, hsecond, hfound⟩ := h.exists_segments second
  have htext (text : Bytes) {segments : List Segment} (h : lexemesOf segments = lexemes text) :
      textOf (lexemesOf segments) = text := by
    rw [h, textOf_lexemes]
  have hboth : textOf (lexemesOf (before ++ after)) = first ++ second := by
    rw [lexemesOf_append, textOf_append, htext first hbefore, htext second hafter]
  have hcount : (findStatements (first ++ second)).length =
      (findStatements first).length + (findStatements second).length := by
    rw [h.findStatements_append, List.length_append, List.length_map]
  rw [hfound, hfirst, hsecond] at hcount
  rw [strip_scan_of_segments hboth hfound, strip_scan_of_segments (htext first hbefore) hfirst,
    strip_scan_of_segments (htext second hafter) hsecond, strippedOf_append, hcount]

/-- Ranges are counted from where the text begins. -/
theorem replaceFrom_shift (distance position : Nat) (spans : List Span) (text : Bytes) :
    replaceFrom (distance + position) (spans.map (Span.shift distance)) text =
      replaceFrom position spans text := by
  induction spans generalizing position text with
  | nil => rfl
  | cons span spans ih =>
    simp only [List.map_cons, replaceFrom, Span.shift, ih, Nat.add_sub_add_left]

/-- What stands in front of the first range is kept. -/
theorem replaceFrom_kept (kept : Bytes) (spans : List Span) (rest : Bytes) :
    replaceFrom 0 (spans.map (Span.shift kept.length)) (kept ++ rest) =
      kept ++ replaceFrom 0 spans rest := by
  cases spans with
  | nil => rfl
  | cons span spans =>
    simp only [List.map_cons, replaceFrom, Span.shift, replaceFrom_shift, Nat.sub_zero,
      List.take_length_add_append, List.drop_length_add_append, List.append_assoc]

/-- A text is stripped alone behind one that the search passes over where a statement can begin. -/
theorem strip_scan_kept {kept rest : Bytes}
    (h : statementsFrom 0 0 true false (kept ++ rest) =
      statementsFrom kept.length 0 true false rest) :
    strip .scan (kept ++ rest) = ⟨kept ++ (strip .scan rest).text, (strip .scan rest).removed⟩ := by
  have hfind : findStatements (kept ++ rest) =
      (findStatements rest).map (Span.shift kept.length) := by
    rw [findStatements, h, findStatements, ← statementsFrom_add, Nat.add_zero]
  rw [strip, hfind, List.length_map, replaceSpans, replaceFrom_kept]
  rfl

/-- Behind a text that is empty, or is read to its end where a statement can begin and no comment is
open, the statements of another text are found, and replaced, as in that text alone. -/
theorem findStatements_strip_append {first : Bytes} (h : first = [] ∨ Joinable first)
    (second : Bytes) :
    findStatements (first ++ second) =
        findStatements first ++ (findStatements second).map (Span.shift first.length) ∧
      strip .scan (first ++ second) =
        ⟨(strip .scan first).text ++ (strip .scan second).text,
          (strip .scan first).removed + (strip .scan second).removed⟩ := by
  have hjoinable : Joinable first := by
    rcases h with rfl | h
    · exact joinable_nil
    · exact h
  exact ⟨hjoinable.findStatements_append second, strip_scan_append hjoinable second⟩

/-- A call that is no statement, with a statement inside it, and a comment before the seam. -/
theorem findStatements_strip_append_nested :
    Joinable (ascii "f(print(\x7bprint(1);\x7d) + 'r'); // print(\n") ∧
      findStatements (ascii "f(print(\x7bprint(1);\x7d) + 'r'); // print(\n" ++
        ascii "debugPrint(')');") = [⟨9, 18⟩, ⟨39, 55⟩] := by
  have hjoinable : Joinable (ascii "f(print(\x7bprint(1);\x7d) + 'r'); // print(\n") := by
    refine ⟨by rfl, ?_⟩
    have hlast : (lexemes (ascii "f(print(\x7bprint(1);\x7d) + 'r'); // print(\n")).getLast? =
        some (.single Byte.newline) := by rfl
    rw [hlast]
    rintro lexeme ⟨⟩
    decide
  have hfirst : findStatements (ascii "f(print(\x7bprint(1);\x7d) + 'r'); // print(\n") =
      [⟨9, 18⟩] := by rfl
  have hsecond : findStatements (ascii "debugPrint(')');") = [⟨0, 16⟩] := by rfl
  refine ⟨hjoinable, ?_⟩
  have happend := (findStatements_strip_append (.inr hjoinable) (ascii "debugPrint(')');")).1
  rw [hfirst, hsecond] at happend
  exact happend

end DebugSweep.Strip
