import Mathlib.Data.List.Forall2
import DebugSweep.Strip.Pattern

/-!
# What patterns match

A text matches the items of a pattern if it begins with pieces that the items accept one by one.
`matchItems?` finds such pieces where there are any, by whatever order it tries them. The pieces of
the pattern of a pass are blanks and a call, so the text of a match is known without the search that
found it.
-/

namespace DebugSweep.Strip

/-- The piece of text is one that the item matches. -/
def Item.Accepts : Item → List Char → Prop
  | .one c, piece => piece = [c]
  | .run class?, piece => ∀ c ∈ piece, class? c = true

/-- What a run and the items after it have matched is a run and what they match. -/
theorem exists_of_matchRun? {class? : Char → Bool} {after? : List Char → Option (List Nat)}
    {text : List Char} {lengths : List Nat} (h : matchRun? class? after? text = some lengths) :
    ∃ piece rest following, text = piece ++ rest ∧ (∀ c ∈ piece, class? c = true) ∧
      after? rest = some following ∧ lengths = piece.length :: following := by
  induction text generalizing lengths with
  | nil =>
    rw [matchRun?, Option.map_eq_some_iff] at h
    obtain ⟨following, hfollowing, rfl⟩ := h
    exact ⟨[], [], following, rfl, List.forall_mem_nil _, hfollowing, rfl⟩
  | cons c text ih =>
    have hshortest (h : (after? (c :: text)).map (0 :: ·) = some lengths) :
        ∃ piece rest following, c :: text = piece ++ rest ∧ (∀ c ∈ piece, class? c = true) ∧
          after? rest = some following ∧ lengths = piece.length :: following := by
      rw [Option.map_eq_some_iff] at h
      obtain ⟨following, hfollowing, rfl⟩ := h
      exact ⟨[], c :: text, following, rfl, List.forall_mem_nil _, hfollowing, rfl⟩
    rw [matchRun?] at h
    split at h
    · rename_i hclass
      split at h
      · rename_i length others hrest
        obtain ⟨piece, rest, following, rfl, hpiece, hfollowing, hlengths⟩ := ih hrest
        obtain ⟨rfl, rfl⟩ := List.cons.inj hlengths
        exact ⟨c :: piece, rest, others, rfl, List.forall_mem_cons.mpr ⟨hclass, hpiece⟩,
          hfollowing, (Option.some.inj h).symm⟩
      · exact hshortest h
    · exact hshortest h

/-- A run is matched where there is one before what the items after it match. -/
theorem exists_matchRun? {class? : Char → Bool} {after? : List Char → Option (List Nat)}
    {piece rest : List Char} {following : List Nat} (hpiece : ∀ c ∈ piece, class? c = true)
    (h : after? rest = some following) :
    ∃ lengths, matchRun? class? after? (piece ++ rest) = some lengths := by
  induction piece with
  | nil =>
    cases rest with
    | nil => exact ⟨_, by rw [List.append_nil, matchRun?, h]; rfl⟩
    | cons c rest =>
      simp only [List.nil_append, matchRun?, h]
      split
      · split
        · exact ⟨_, rfl⟩
        · exact ⟨_, rfl⟩
      · exact ⟨_, rfl⟩
  | cons c piece ih =>
    rw [List.forall_mem_cons] at hpiece
    obtain ⟨lengths, hlengths⟩ := ih hpiece.2
    obtain ⟨found, -, others, -, -, -, hcons⟩ := exists_of_matchRun? hlengths
    rw [hcons] at hlengths
    refine ⟨(found.length + 1) :: others, ?_⟩
    simp only [List.cons_append, matchRun?, if_pos hpiece.1, hlengths]

/-- What has been matched are pieces that the items accept. -/
theorem exists_of_matchItems? {items : List Item} {text : List Char} {lengths : List Nat}
    (h : matchItems? items text = some lengths) :
    ∃ pieces rest, text = pieces.flatten ++ rest ∧ List.Forall₂ Item.Accepts items pieces ∧
      lengths = pieces.map List.length := by
  induction items generalizing text lengths with
  | nil =>
    cases h
    exact ⟨[], text, rfl, .nil, rfl⟩
  | cons item items ih =>
    cases item with
    | one c =>
      cases text with
      | nil => cases h
      | cons d text =>
        rw [matchItems?] at h
        split_ifs at h with hc
        subst hc
        rw [Option.map_eq_some_iff] at h
        obtain ⟨following, hfollowing, rfl⟩ := h
        obtain ⟨pieces, rest, rfl, hpieces, rfl⟩ := ih hfollowing
        exact ⟨[c] :: pieces, rest, rfl, .cons rfl hpieces, rfl⟩
    | run class? =>
      rw [matchItems?] at h
      obtain ⟨piece, more, following, rfl, hpiece, hfollowing, rfl⟩ := exists_of_matchRun? h
      obtain ⟨pieces, rest, rfl, hpieces, rfl⟩ := ih hfollowing
      exact ⟨piece :: pieces, rest, by simp, .cons hpiece hpieces, rfl⟩

/-- Pieces that the items accept are matched, by these pieces or others. -/
theorem exists_matchItems? {items : List Item} {pieces : List (List Char)}
    (h : List.Forall₂ Item.Accepts items pieces) (rest : List Char) :
    ∃ lengths, matchItems? items (pieces.flatten ++ rest) = some lengths := by
  induction h with
  | nil => exact ⟨[], rfl⟩
  | @cons item piece items pieces hpiece _ ih =>
    obtain ⟨lengths, hlengths⟩ := ih
    rw [List.flatten_cons, List.append_assoc]
    cases item with
    | one c =>
      obtain rfl : piece = [c] := hpiece
      exact ⟨1 :: lengths, by simp [matchItems?, hlengths]⟩
    | run class? => exact exists_matchRun? hpiece hlengths

/-- A call as the patterns see it. -/
def callText (name inner : List Char) : List Char := name ++ '(' :: (inner ++ [')', ';'])

/-- The pieces in which a call is matched. -/
def callPieces (name inner : List Char) : List (List Char) :=
  name.map ([·]) ++ [['('], inner, [')'], [';']]

theorem flatten_callPieces (name inner : List Char) :
    (callPieces name inner).flatten = callText name inner := by
  simp [callPieces, callText, ← List.flatMap_def]

/-- Single characters accept only themselves. -/
theorem forall₂_accepts_ones {name : List Char} {items : List Item} {pieces : List (List Char)} :
    List.Forall₂ Item.Accepts (name.map .one ++ items) pieces ↔
      ∃ others, pieces = name.map ([·]) ++ others ∧ List.Forall₂ Item.Accepts items others := by
  induction name generalizing pieces with
  | nil => simp
  | cons c name ih =>
    simp only [List.map_cons, List.cons_append, List.forall₂_cons_left_iff, ih]
    constructor
    · rintro ⟨_, _, rfl, ⟨others, rfl, hothers⟩, rfl⟩
      exact ⟨others, rfl, hothers⟩
    · rintro ⟨others, rfl, hothers⟩
      exact ⟨[c], _, rfl, ⟨others, rfl, hothers⟩, rfl⟩

/-- The pieces of the pattern of a pass are blanks and the pieces of a call. -/
theorem forall₂_accepts_patternOf {name : List Char} {reach : Reach}
    {pieces : List (List Char)} :
    List.Forall₂ Item.Accepts (patternOf name reach) pieces ↔
      ∃ blanks inner, (∀ c ∈ blanks, Text.isBlank c = true) ∧ reach.delimiter ∉ inner ∧
        pieces = blanks :: callPieces name inner := by
  constructor
  · intro h
    simp only [patternOf, List.forall₂_cons_left_iff, forall₂_accepts_ones,
      List.forall₂_nil_left_iff] at h
    revert h
    rintro ⟨blanks, _, hblanks, ⟨_, rfl, _, _, rfl, ⟨inner, _, hinner, ⟨_, _, rfl,
      ⟨_, _, rfl, rfl, rfl⟩, rfl⟩, rfl⟩, rfl⟩, rfl⟩
    refine ⟨blanks, inner, hblanks, fun hmem => ?_, rfl⟩
    simpa using hinner _ hmem
  · rintro ⟨blanks, inner, hblanks, hinner, rfl⟩
    refine .cons hblanks (forall₂_accepts_ones.mpr ⟨_, rfl, .cons rfl (.cons ?_ ?_)⟩)
    · intro c hc
      exact bne_iff_ne.mpr fun heq => hinner (heq ▸ hc)
    · exact .cons rfl (.cons rfl .nil)

/-- A match of the pattern of a pass is blanks and a call. -/
theorem exists_of_matchItems?_patternOf {name : List Char} {reach : Reach} {text : List Char}
    {lengths : List Nat} (h : matchItems? (patternOf name reach) text = some lengths) :
    ∃ blanks inner rest others, (∀ c ∈ blanks, Text.isBlank c = true) ∧ reach.delimiter ∉ inner ∧
      text = blanks ++ (callText name inner ++ rest) ∧ lengths = blanks.length :: others ∧
      others.sum = (callText name inner).length := by
  obtain ⟨pieces, rest, rfl, hpieces, rfl⟩ := exists_of_matchItems? h
  obtain ⟨blanks, inner, hblanks, hinner, rfl⟩ := forall₂_accepts_patternOf.mp hpieces
  refine ⟨blanks, inner, rest, _, hblanks, hinner, ?_, List.map_cons, ?_⟩
  · rw [List.flatten_cons, flatten_callPieces, List.append_assoc]
  · rw [← List.length_flatten, flatten_callPieces]

/-- The pattern of a pass matches blanks before a call. -/
theorem exists_matchItems?_patternOf (name : List Char) {reach : Reach} {blanks inner : List Char}
    (hblanks : ∀ c ∈ blanks, Text.isBlank c = true) (hinner : reach.delimiter ∉ inner)
    (rest : List Char) : ∃ lengths,
      matchItems? (patternOf name reach) (blanks ++ (callText name inner ++ rest)) =
        some lengths := by
  have hpieces : List.Forall₂ Item.Accepts (patternOf name reach)
      (blanks :: callPieces name inner) :=
    forall₂_accepts_patternOf.mpr ⟨blanks, inner, hblanks, hinner, rfl⟩
  obtain ⟨lengths, hlengths⟩ := exists_matchItems? hpieces rest
  rw [List.flatten_cons, flatten_callPieces, List.append_assoc] at hlengths
  exact ⟨lengths, hlengths⟩

/-- The characters of a match are passed over. -/
theorem replaceMatches_skip (items : List Item) (replacement passed rest : List Char) :
    replaceMatches items replacement passed.length (passed ++ rest) =
      replaceMatches items replacement 0 rest := by
  induction passed with
  | nil => rfl
  | cons c passed ih => exact ih

/-- Where nothing matches a character is kept. -/
theorem replaceMatches_of_none {items : List Item} {c : Char} {text : List Char}
    (h : matchItems? items (c :: text) = none) (replacement : List Char) :
    replaceMatches items replacement 0 (c :: text) =
      ⟨c :: (replaceMatches items replacement 0 text).text,
        (replaceMatches items replacement 0 text).count⟩ := by
  rw [replaceMatches, h]

/-- A match is replaced, except for what its first item has matched. -/
theorem replaceMatches_of_some {items : List Item} {kept matched : List Char} {lengths : List Nat}
    (hmatched : matched ≠ []) (hsum : lengths.sum = matched.length) {rest : List Char}
    (h : matchItems? items (kept ++ (matched ++ rest)) = some (kept.length :: lengths))
    (replacement : List Char) :
    replaceMatches items replacement 0 (kept ++ (matched ++ rest)) =
      ⟨kept ++ (replacement ++ (replaceMatches items replacement 0 rest).text),
        (replaceMatches items replacement 0 rest).count + 1⟩ := by
  obtain ⟨c, passed, hpassed⟩ : ∃ c passed, kept ++ matched = c :: passed :=
    List.exists_cons_of_ne_nil (by simp [hmatched])
  have htext : kept ++ (matched ++ rest) = c :: (passed ++ rest) := by
    rw [← List.append_assoc, hpassed, List.cons_append]
  have hlength : kept.length + lengths.sum - 1 = passed.length := by
    rw [hsum, ← List.length_append, hpassed, List.length_cons, Nat.add_sub_cancel]
  have hkept : (c :: (passed ++ rest)).take kept.length = kept := by
    rw [← htext, List.take_left]
  rw [htext] at h ⊢
  simp only [replaceMatches, h, hlength, hkept, replaceMatches_skip]

end DebugSweep.Strip
