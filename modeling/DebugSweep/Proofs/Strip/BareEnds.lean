import DebugSweep.Proofs.Source.BareStatements
import DebugSweep.Proofs.Strip.Markers

/-!
# Stripping does not depend on the style of line ends

A text and the text with bare line ends hold the same statements, and what lies between them in the
one is what lies between them in the other, less the carriage returns. No line end is cut by a
statement or by a marker, so stripping and dropping the carriage returns can change places.
-/

namespace DebugSweep.Strip

open Source Text

/-- What follows a text does not matter unless it begins with a newline. -/
theorem bareBefore_of_head? {rest : Bytes} (h : rest.head? ≠ some Byte.newline) (text : Bytes) :
    bareBefore rest text = bareEnds text := by
  induction text with
  | nil => rfl
  | cons b text ih =>
    have hhead : (text ++ rest).head? = some Byte.newline ↔ text.head? = some Byte.newline := by
      cases text with
      | nil => simpa using h
      | cons c tail => rfl
    simp only [bareBefore, bareEnds, hhead, ih]

/-- No line end is cut by a marker. -/
theorem bareEnds_intercalate (pieces : List Bytes) :
    bareEnds (marker.intercalate pieces) = marker.intercalate (pieces.map bareEnds) := by
  have hmarker : carriageReturn ∉ marker := by decide
  induction pieces with
  | nil => rfl
  | cons piece pieces ih =>
    cases pieces with
    | nil => simp [List.intercalate]
    | cons next pieces =>
      have hhead (rest : Bytes) : (marker ++ rest).head? ≠ some Byte.newline := by
        obtain ⟨tail, hmarked, -⟩ := exists_marker
        rw [hmarked, List.cons_append, List.head?_cons]
        decide
      rw [List.map_cons, List.map_cons, List.intercalate_cons_of_ne_nil (List.cons_ne_nil _ _),
        List.intercalate_cons_of_ne_nil (List.cons_ne_nil _ _), List.append_assoc,
        List.append_assoc, bareEnds_append, bareBefore_of_head? (hhead _), bareEnds_append,
        bareBefore_of_not_mem hmarker, ih, List.map_cons]

/-- No statement begins with a newline. -/
theorem head?_drop_start {text : Bytes} {span : Span} (hspan : span ∈ findStatements text) :
    (text.drop span.start).head? ≠ some Byte.newline := by
  obtain ⟨segments, hlexemes, hsegmented, hfind⟩ := exists_segments text
  rw [hfind] at hspan
  obtain ⟨first, body, rest, hsplit, -, hbody, hfirst, -⟩ :=
    hsegmented.placed.exists_of_mem_spansOf hspan
  obtain ⟨b, tail, htext, hword⟩ := hbody.exists_textOf
  have hwhole := textOf_lexemes text
  rw [← hlexemes, hsplit, textOf_append, textOf_append, htext] at hwhole
  rw [← hwhole, hfirst, Nat.zero_add, List.drop_left, List.cons_append, List.head?_cons]
  rintro ⟨⟩
  cases hword

/-- What lies between ranges that begin with no newline comes to lie between them. -/
theorem gaps_bareEnds {text : Bytes} {last : Nat} {spans : List Span}
    (hlast : ∀ span ∈ spans, last ≤ span.start)
    (hspans : spans.Pairwise fun first later => first.stop ≤ later.start)
    (hheads : ∀ span ∈ spans, (text.drop span.start).head? ≠ some Byte.newline) :
    gaps (bareEnds text) (bareOffset text last) (spans.map (Span.bare text)) =
      (gaps text last spans).map bareEnds := by
  induction spans generalizing last with
  | nil => rw [List.map_nil, gaps, gaps, drop_bareOffset, List.map_cons, List.map_nil]
  | cons span spans ih =>
    rw [List.pairwise_cons] at hspans
    have hrest := ih hspans.1 hspans.2 fun later hlater =>
      hheads later (List.mem_cons_of_mem _ hlater)
    have hstart := hlast span List.mem_cons_self
    have hpiece : ((bareEnds text).take (bareOffset text span.start)).drop (bareOffset text last) =
        bareEnds ((text.take span.start).drop last) := by
      have hbehind : (text.take span.start).drop last ++ text.drop span.start = text.drop last := by
        rw [List.drop_take, ← Nat.add_sub_cancel' hstart, ← List.drop_drop, Nat.add_sub_cancel_left,
          List.take_append_drop]
      have hkept : bareBefore (text.drop span.start) (text.take span.start) =
          bareBefore (text.drop last) (text.take last) ++
            bareEnds ((text.take span.start).drop last) := by
        have hboth := List.take_append_drop last (text.take span.start)
        rw [List.take_take, Nat.min_eq_left hstart] at hboth
        conv_lhs => rw [← hboth]
        rw [bareBefore_append, hbehind, bareBefore_of_head? (hheads span List.mem_cons_self)]
      rw [take_bareOffset, hkept, bareOffset, List.drop_left]
    rw [List.map_cons, gaps, gaps, List.map_cons, ← hrest]
    exact congrArg (· :: _) hpiece

/-- In a text in which no backslash stands directly before a line end of two bytes, dropping the
carriage returns of the line ends changes nothing about what is found and replaced: the statements
are the same, each where its offsets come to lie, as many are reported as removed, and the stripped
text is the one that had been stripped before. -/
theorem strip_scan_bareEnds {text : Bytes} (hplain : NoEscapedEnd text) :
    findStatements (bareEnds text) = (findStatements text).map (Span.bare text) ∧
      strip .scan (bareEnds text) =
        ⟨bareEnds (strip .scan text).text, (strip .scan text).removed⟩ := by
  have hfind := findStatements_bareEnds hplain
  have hgaps := gaps_bareEnds (fun _ _ => Nat.zero_le _) (pairwise_findStatements text)
    fun span hspan => head?_drop_start hspan
  have htext : (strip .scan (bareEnds text)).text = bareEnds (strip .scan text).text := by
    rw [text_strip_scan, text_strip_scan, bareEnds_intercalate, ← hgaps, hfind]
    rfl
  have hremoved : (strip .scan (bareEnds text)).removed = (strip .scan text).removed := by
    rw [strip, strip, hfind, List.length_map]
  refine ⟨hfind, ?_⟩
  rw [← htext, ← hremoved]

/-- Line ends in a comment, in literals, in code to evaluate, behind an open literal and before the
end of a statement. -/
theorem strip_scan_bareEnds_mixed :
    NoEscapedEnd (ascii "//\r\nprint('''a\r\n''')\r\n;\r\nprint(\"$\x7b\r\n1\x7d\", 'b\r\n);") ∧
      strip .scan (ascii "//\nprint('''a\n''')\n;\nprint(\"$\x7b\n1\x7d\", 'b\n);") =
        ⟨ascii "//\n// Debug logging removed\n// Debug logging removed", 2⟩ := by
  have hplain : NoEscapedEnd
      (ascii "//\r\nprint('''a\r\n''')\r\n;\r\nprint(\"$\x7b\r\n1\x7d\", 'b\r\n);") := by
    decide +kernel
  have hstrip : strip .scan
      (ascii "//\r\nprint('''a\r\n''')\r\n;\r\nprint(\"$\x7b\r\n1\x7d\", 'b\r\n);") =
        ⟨ascii "//\r\n// Debug logging removed\r\n// Debug logging removed", 2⟩ := by
    decide +kernel
  have hbare := (strip_scan_bareEnds hplain).2
  rw [hstrip] at hbare
  exact ⟨hplain, hbare⟩

/-- An escape that takes the carriage return leaves the newline to end the literal. -/
example :
    strip .scan (ascii "print('\\\r\n');") = ⟨ascii "print('\\\r\n');", 0⟩ ∧
      (strip .scan (ascii "print('\\\n');")).removed = 1 := by
  decide +kernel

end DebugSweep.Strip
