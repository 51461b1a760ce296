import Mathlib.Algebra.GroupWithZero.Nat
import DebugSweep.Proofs.Strip.SoundSpans
import DebugSweep.Proofs.Text.Occurrences

/-!
# The markers in a stripped text

The marker has no border, so in a stripped text it stands in the place of each statement and
wherever it stood in what lies between the statements, and nowhere else: none arises where kept text
and a marker meet or where two markers do, and none is lost (`offsetsOf_marker_strip_scan`). The
number of statements reported as removed can therefore be read off the text.
-/

namespace DebugSweep.Strip

open Source Text

/-- The offsets at which the marker stands in pieces with the marker between them, the first of
which begins at offset `position`: those in each piece, and one behind each piece but the last. -/
def markerOffsets (position : Nat) : List Bytes → List Nat
  | [] => []
  | [piece] => (offsetsOf marker piece).map (position + ·)
  | piece :: next :: pieces =>
    (offsetsOf marker piece).map (position + ·) ++
      (position + piece.length) ::
        markerOffsets (position + piece.length + marker.length) (next :: pieces)

/-- The marker occurs between the pieces and in them. -/
theorem length_markerOffsets (position : Nat) {pieces : List Bytes} (h : pieces ≠ []) :
    (markerOffsets position pieces).length + 1 =
      pieces.length + (pieces.map fun piece => (offsetsOf marker piece).length).sum := by
  induction pieces generalizing position with
  | nil => exact absurd rfl h
  | cons piece pieces ih =>
    cases pieces with
    | nil => simp [markerOffsets, Nat.add_comm]
    | cons next pieces =>
      have hrest := ih (position + piece.length + marker.length) (List.cons_ne_nil _ _)
      rw [markerOffsets, List.length_append, List.length_cons, List.length_map, List.map_cons,
        List.sum_cons, List.length_cons]
      omega

/-- The offsets are counted from where the pieces begin. -/
theorem map_markerOffsets (distance position : Nat) (pieces : List Bytes) :
    (markerOffsets position pieces).map (distance + ·) =
      markerOffsets (distance + position) pieces := by
  induction pieces generalizing position with
  | nil => rfl
  | cons piece pieces ih =>
    cases pieces with
    | nil => simp [markerOffsets, Function.comp_def, Nat.add_assoc]
    | cons next pieces =>
      simp [markerOffsets, Function.comp_def, Nat.add_assoc, ih]

theorem marker_ne_nil : marker ≠ [] := by decide

theorem unbordered_marker : Unbordered marker := by decide +kernel

/-- Pieces with the marker between them show it there, and elsewhere where a piece shows it. -/
theorem offsetsOf_intercalate (pieces : List Bytes) :
    offsetsOf marker (marker.intercalate pieces) = markerOffsets 0 pieces := by
  induction pieces with
  | nil => rfl
  | cons piece pieces ih =>
    cases pieces with
    | nil => simp [List.intercalate, markerOffsets]
    | cons next pieces =>
      rw [List.intercalate_cons_of_ne_nil (List.cons_ne_nil next pieces), List.append_assoc,
        unbordered_marker.offsetsOf_append marker_ne_nil, ih, map_markerOffsets, markerOffsets]
      simp

/-- A stripped text is what lies between the statements with the marker in between. -/
theorem text_strip_scan (text : Bytes) :
    (strip .scan text).text = marker.intercalate (gaps text 0 (findStatements text)) := by
  obtain ⟨segments, -, -, hfind⟩ := exists_segments text
  refine replaceFrom_eq_intercalate text (fun _ _ => Nat.zero_le _) (pairwise_findStatements text)
    fun span hspan => ?_
  rw [hfind] at hspan
  exact (le_start_of_mem_spansOf hspan).2

/-- There is one piece more than there are ranges. -/
theorem length_gaps (text : Bytes) (last : Nat) (spans : List Span) :
    (gaps text last spans).length = spans.length + 1 := by
  induction spans generalizing last with
  | nil => rfl
  | cons span spans ih => rw [gaps, List.length_cons, ih, List.length_cons]

/-- What lies between ranges is part of the text. -/
theorem infix_of_mem_gaps {text : Bytes} {last : Nat} {spans : List Span} {piece : Bytes}
    (h : piece ∈ gaps text last spans) : piece <:+: text := by
  induction spans generalizing last with
  | nil =>
    rw [gaps, List.mem_singleton] at h
    exact h ▸ (List.drop_suffix last text).isInfix
  | cons span spans ih =>
    rcases List.mem_cons.mp h with rfl | hrest
    · exact (List.drop_suffix _ _).isInfix.trans (List.take_prefix _ _).isInfix
    · exact ih hrest

/-- The marker stands in a stripped text exactly where a statement was replaced and where it stood
between the statements. There are as many as statements reported as removed and as stood between
the statements; in particular, a text without the marker shows exactly how many were removed. -/
theorem offsetsOf_marker_strip_scan (text : Bytes) :
    offsetsOf marker (strip .scan text).text =
        markerOffsets 0 (gaps text 0 (findStatements text)) ∧
      (offsetsOf marker (strip .scan text).text).length =
        (strip .scan text).removed +
          ((gaps text 0 (findStatements text)).map fun piece =>
            (offsetsOf marker piece).length).sum ∧
      (¬marker <:+: text →
        (offsetsOf marker (strip .scan text).text).length = (strip .scan text).removed) := by
  have hoffsets : offsetsOf marker (strip .scan text).text =
      markerOffsets 0 (gaps text 0 (findStatements text)) := by
    rw [text_strip_scan, offsetsOf_intercalate]
  have hcount : (offsetsOf marker (strip .scan text).text).length =
      (strip .scan text).removed + ((gaps text 0 (findStatements text)).map fun piece =>
        (offsetsOf marker piece).length).sum := by
    have hpieces := length_markerOffsets 0 (gaps_ne_nil text 0 (findStatements text))
    have hremoved : (strip .scan text).removed = (findStatements text).length := rfl
    rw [length_gaps] at hpieces
    rw [hoffsets, hremoved]
    omega
  refine ⟨hoffsets, hcount, fun hnone => ?_⟩
  have hpieces : ((gaps text 0 (findStatements text)).map fun piece =>
      (offsetsOf marker piece).length).sum = 0 := by
    refine List.sum_eq_zero_iff_forall_eq_nat.mpr fun length hlength => ?_
    obtain ⟨piece, hpiece, rfl⟩ := List.mem_map.mp hlength
    rw [offsetsOf_eq_nil marker_ne_nil fun hin =>
      hnone (hin.trans (infix_of_mem_gaps hpiece)), List.length_nil]
  rw [hcount, hpieces, Nat.add_zero]

/-- Slashes before a statement and the end of a marker behind it make no further marker. -/
theorem offsetsOf_marker_strip_scan_slashes :
    ¬marker <:+: ascii "/**/print(1);/ Debug logging removed" ∧
      (strip .scan (ascii "/**/print(1);/ Debug logging removed")).text =
        ascii "/**/// Debug logging removed/ Debug logging removed" ∧
      (offsetsOf marker (ascii "/**/// Debug logging removed/ Debug logging removed")).length =
        1 := by
  have hnone : ¬marker <:+: ascii "/**/print(1);/ Debug logging removed" := by decide +kernel
  have hstrip : strip .scan (ascii "/**/print(1);/ Debug logging removed") =
      ⟨ascii "/**/// Debug logging removed/ Debug logging removed", 1⟩ := by decide +kernel
  have hcount :=
    (offsetsOf_marker_strip_scan (ascii "/**/print(1);/ Debug logging removed")).2.2 hnone
  rw [hstrip] at hcount
  exact ⟨hnone, congrArg Stripped.text hstrip, hcount⟩

end DebugSweep.Strip
