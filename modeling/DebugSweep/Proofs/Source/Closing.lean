import Mathlib.Data.List.Basic
import Mathlib.Data.Nat.Init
import DebugSweep.Source.Region

/-!
# Where open regions close

Following a stack of open regions composes: the text up to the place where `inner ++ outer` has
closed is the text up to the place where `inner` has closed, and from there the text up to the place
where `outer` has. A comment or a literal inside an argument list is therefore passed over as a
whole, by the length that `triviaLength?` gives it.

`closing?` is `closeLength?` at the beginning of a text; every other call of `closeLength?` is a
shifted one.
-/

namespace DebugSweep.Source

/-- Whether an identifier byte stands directly before what follows `passed`. -/
def wordAfter (inWord : Bool) (passed : Bytes) : Bool :=
  passed.foldl (fun _ b => Byte.isWord b) inWord

/-- The length of the text up to the place where every region of the stack has closed. -/
def closing? (regions : List Region) (inWord : Bool) (text : Bytes) : Option Nat :=
  closeLength? 0 0 regions inWord text

@[simp] theorem wordAfter_nil (inWord : Bool) : wordAfter inWord [] = inWord := rfl

@[simp] theorem wordAfter_cons (inWord : Bool) (b : UInt8) (passed : Bytes) :
    wordAfter inWord (b :: passed) = wordAfter (Byte.isWord b) passed := rfl

/-- Only the last byte passed matters. -/
theorem wordAfter_append (inWord : Bool) (first second : Bytes) :
    wordAfter inWord (first ++ second) = wordAfter (wordAfter inWord first) second :=
  List.foldl_append

/-- Passing a prefix in two portions. -/
theorem wordAfter_take_add (inWord : Bool) (text : Bytes) (m n : Nat) :
    wordAfter inWord (text.take (m + n)) =
      wordAfter (wordAfter inWord (text.take m)) ((text.drop m).take n) := by
  rw [List.take_add, wordAfter_append]

/-- A length is counted in portions. -/
theorem map_add_map (first second : Nat) (length? : Option Nat) :
    (length?.map (second + ·)).map (first + ·) = length?.map (first + second + ·) := by
  rw [Option.map_map]
  congr 1
  funext n
  exact (Nat.add_assoc first second n).symm

/-- The bytes that lie behind are added to the length. -/
theorem closeLength?_passed (passed skip : Nat) (regions : List Region) (inWord : Bool)
    (text : Bytes) :
    closeLength? passed skip regions inWord text =
      (closeLength? 0 skip regions inWord text).map (passed + ·) := by
  induction text generalizing passed skip regions inWord with
  | nil => cases regions <;> simp [closeLength?]
  | cons b rest ih =>
    cases regions with
    | nil => simp [closeLength?]
    | cons region outer =>
      have shift (skip : Nat) (regions : List Region) :
          closeLength? (passed + 1) skip regions (Byte.isWord b) rest =
            (closeLength? (0 + 1) skip regions (Byte.isWord b) rest).map (passed + ·) := by
        rw [ih, ih (0 + 1), map_add_map, Nat.zero_add]
      cases skip with
      | zero => exact shift _ _
      | succ skip => exact shift _ _

/-- The bytes that belong to the step just taken are passed over. -/
theorem closeLength?_skip (passed skip : Nat) (regions : List Region) (inWord : Bool)
    (text : Bytes) :
    closeLength? passed skip regions inWord text =
      closeLength? (passed + skip) 0 regions (wordAfter inWord (text.take skip))
        (text.drop skip) := by
  induction text generalizing passed skip inWord with
  | nil => cases regions <;> simp [closeLength?]
  | cons b rest ih =>
    cases regions with
    | nil => cases h : (b :: rest).drop skip <;> simp [closeLength?]
    | cons region outer =>
      cases skip with
      | zero => simp
      | succ skip =>
        rw [List.take_succ_cons, List.drop_succ_cons, wordAfter_cons,
          show passed + (skip + 1) = passed + 1 + skip by omega, ← ih, closeLength?]

/-- Following the regions from anywhere is following them from the beginning of what is left. -/
theorem closeLength?_eq_map (passed skip : Nat) (regions : List Region) (inWord : Bool)
    (text : Bytes) :
    closeLength? passed skip regions inWord text =
      (closing? regions (wordAfter inWord (text.take skip)) (text.drop skip)).map
        (passed + skip + ·) := by
  rw [closeLength?_skip, closeLength?_passed, closing?]

/-- A stack without regions has closed at once. -/
@[simp] theorem closing?_no_regions (inWord : Bool) (text : Bytes) :
    closing? [] inWord text = some 0 := by
  cases text <;> rfl

/-- A text that has ended closes nothing. -/
@[simp] theorem closing?_nil (region : Region) (outer : List Region) (inWord : Bool) :
    closing? (region :: outer) inWord [] = none := rfl

/-- Following the regions is taking a step and following what it leaves open. -/
theorem closing?_cons {region : Region} {outer next : List Region} {inWord : Bool} {b : UInt8}
    {rest : Bytes} {length : Nat} (hstep : region.step outer inWord b rest = (next, length)) :
    closing? (region :: outer) inWord (b :: rest) =
      (closing? next (wordAfter inWord ((b :: rest).take length)) ((b :: rest).drop length)).map
        (length + ·) := by
  have positive := Region.step_length_pos region outer inWord b rest
  rw [hstep] at positive
  obtain ⟨n, rfl⟩ : ∃ n, length = n + 1 := ⟨length - 1, by simp at positive; omega⟩
  rw [closing?, closeLength?, hstep]
  simp only [Nat.add_sub_cancel, closeLength?_eq_map (0 + 1), List.take_succ_cons,
    List.drop_succ_cons, wordAfter_cons]
  congr 1
  funext m
  omega

/-- What closes after a step closes behind it. -/
theorem exists_of_closing?_cons {region : Region} {outer next : List Region} {inWord : Bool}
    {b : UInt8} {rest : Bytes} {length n : Nat}
    (hstep : region.step outer inWord b rest = (next, length))
    (h : closing? (region :: outer) inWord (b :: rest) = some n) :
    ∃ m, closing? next (wordAfter inWord ((b :: rest).take length)) ((b :: rest).drop length) =
      some m ∧ length + m = n := by
  rwa [closing?_cons hstep, Option.map_eq_some_iff] at h

/-- Whether code is read inside the region, so that comments and literals can open there. -/
def Region.readsCode : Region → Bool
  | .arguments _ | .interpolation _ => true
  | .literal .. | .lineComment | .blockComment _ => false

/-- A step looks at the innermost region only. -/
theorem Region.step_append (region : Region) (inner outer : List Region) (inWord : Bool) (b : UInt8)
    (rest : Bytes) :
    region.step (inner ++ outer) inWord b rest =
      ((region.step inner inWord b rest).1 ++ outer, (region.step inner inWord b rest).2) := by
  have count (make : Nat → Region) (opener closer : UInt8) (nested : Nat) :
      countNested make opener closer nested (inner ++ outer) b =
        countNested make opener closer nested inner b ++ outer := by
    unfold countNested
    split
    · rfl
    · split
      · cases nested <;> rfl
      · rfl
  cases region with
  | arguments nested =>
    cases h : opening? inWord (b :: rest) with
    | none => simp only [Region.step, h, count]
    | some opened => simp only [Region.step, h, List.cons_append]
  | interpolation nested =>
    cases h : opening? inWord (b :: rest) with
    | none => simp only [Region.step, h, count]
    | some opened => simp only [Region.step, h, List.cons_append]
  | literal quote triple raw =>
    simp only [Region.step]
    split_ifs <;> rfl
  | lineComment =>
    simp only [Region.step]
    split_ifs <;> rfl
  | blockComment nested =>
    simp only [Region.step]
    split_ifs
    · rfl
    · cases nested <;> rfl
    · rfl

/-- A step that closes the last region passes over bytes of the text only. -/
theorem Region.step_length_le {region : Region} {inWord : Bool} {b : UInt8} {rest : Bytes}
    {length : Nat} (h : region.step [] inWord b rest = ([], length)) :
    length ≤ rest.length + 1 := by
  cases region with
  | arguments nested =>
    simp only [Region.step] at h
    split at h
    · cases h
    · simp only [Prod.mk.injEq] at h
      omega
  | interpolation nested =>
    simp only [Region.step] at h
    split at h
    · cases h
    · simp only [Prod.mk.injEq] at h
      omega
  | literal quote triple raw =>
    simp only [Region.step] at h
    split_ifs at h with _ _ _ htriple <;> cases h
    · omega
    · have hlength := congrArg List.length htriple.2
      simp only [List.length_take, List.length_cons, List.length_nil] at hlength
      omega
    · omega
  | lineComment =>
    simp only [Region.step, Prod.mk.injEq] at h
    omega
  | blockComment nested =>
    cases nested with
    | zero =>
      simp only [Region.step] at h
      split_ifs at h with _ hclose <;> cases h
      cases rest with
      | nil => simp at hclose
      | cons c tail => simp
    | succ nested =>
      simp only [Region.step] at h
      split_ifs at h <;> cases h

/-- Regions close within the text. -/
theorem closing?_le {regions : List Region} {inWord : Bool} {text : Bytes} {n : Nat}
    (h : closing? regions inWord text = some n) : n ≤ text.length := by
  induction hlength : text.length using Nat.strong_induction_on
    generalizing regions inWord text n with
  | _ length ih =>
    subst hlength
    match regions, text with
    | [], _ => simp at h; omega
    | region :: outer, [] => simp at h
    | region :: outer, b :: rest =>
      have positive := Region.step_length_pos region outer inWord b rest
      cases hstep : region.step outer inWord b rest with
      | mk next length =>
        rw [hstep] at positive
        obtain ⟨m, hm, rfl⟩ := exists_of_closing?_cons hstep h
        cases next with
        | nil =>
          -- the last region has closed, so it was the only one and its end lies in the text
          simp only [closing?_no_regions, Option.some.injEq] at hm
          subst hm
          have hinner := Region.step_append region [] outer inWord b rest
          rw [List.nil_append, hstep, Prod.mk.injEq, eq_comm, List.append_eq_nil_iff] at hinner
          obtain ⟨⟨hnext, -⟩, hlength⟩ := hinner
          have := Region.step_length_le (Prod.ext hnext hlength.symm)
          simpa using this
        | cons inner others =>
          cases hdrop : (b :: rest).drop length with
          | nil => rw [hdrop, closing?_nil] at hm; cases hm
          | cons c tail =>
            have hshorter := congrArg List.length hdrop
            simp only [List.length_drop, List.length_cons] at hshorter
            have := ih _ (by simp only [List.length_drop, List.length_cons]; omega) hm rfl
            simp only [List.length_drop, List.length_cons] at this ⊢
            omega

/-- Following a stack is following its inner part and then the rest of it. -/
theorem closing?_append (inner outer : List Region) (inWord : Bool) (text : Bytes) :
    closing? (inner ++ outer) inWord text =
      (closing? inner inWord text).bind fun n =>
        (closing? outer (wordAfter inWord (text.take n)) (text.drop n)).map (n + ·) := by
  induction hlength : text.length using Nat.strong_induction_on
    generalizing inner inWord text with
  | _ length ih =>
    subst hlength
    match inner, text with
    | [], text => simp
    | region :: inner, [] => rfl
    | region :: inner, b :: rest =>
      have positive := Region.step_length_pos region inner inWord b rest
      cases hstep : region.step inner inWord b rest with
      | mk next length =>
        rw [hstep] at positive
        have hwhole : region.step (inner ++ outer) inWord b rest = (next ++ outer, length) := by
          rw [Region.step_append, hstep]
        rw [List.cons_append, closing?_cons hwhole, closing?_cons hstep,
          ih _ (by simp only [List.length_drop, List.length_cons]; omega) _ _ _ rfl,
          Option.map_bind, Option.bind_map]
        congr 1
        funext n
        simp only [Function.comp_apply, map_add_map, wordAfter_take_add, List.drop_drop]

/-- Outside code it does not matter what stands before a region. -/
theorem closing?_inWord {region : Region} (hcode : region.readsCode = false) (outer : List Region)
    (inWord inWord' : Bool) (text : Bytes) :
    closing? (region :: outer) inWord text = closing? (region :: outer) inWord' text := by
  cases text with
  | nil => rfl
  | cons b rest =>
    have hstep : region.step outer inWord b rest = region.step outer inWord' b rest := by
      cases region with
      | arguments nested => cases hcode
      | interpolation nested => cases hcode
      | literal quote triple raw => rfl
      | lineComment => rfl
      | blockComment nested => rfl
    obtain ⟨n, hn⟩ : ∃ n, (region.step outer inWord b rest).2 = n + 1 :=
      ⟨_, (Nat.succ_pred_eq_of_pos (Region.step_length_pos region outer inWord b rest)).symm⟩
    have hnext : region.step outer inWord b rest = ((region.step outer inWord b rest).1, n + 1) :=
      Prod.ext rfl hn
    rw [closing?_cons hnext, closing?_cons (hstep.symm.trans hnext)]
    rfl

/-- A slash opens a comment, a quote a literal, and the mark of a raw literal one with the quote
that follows. -/
theorem opening?_cases {inWord : Bool} {b : UInt8} {rest : Bytes} {region : Region} {length : Nat}
    (h : opening? inWord (b :: rest) = some (region, length)) :
    (b = Byte.slash ∧
      ((rest.head? = some Byte.slash ∧ region = .lineComment ∧ length = 1) ∨
        (rest.head? = some Byte.star ∧ region = .blockComment 0 ∧ length = 2))) ∨
    (Byte.isQuote b = true ∧ literalOpening false b rest = (region, length)) ∨
    (b = Byte.letterR ∧ inWord = false ∧ ∃ q tail quotes, rest = q :: tail ∧
      literalOpening true q tail = (region, quotes) ∧ length = quotes + 1) := by
  simp only [opening?] at h
  split_ifs at h with hslash hline hblock hquote hraw
  · cases h
    exact .inl ⟨hslash, .inl ⟨hline, rfl, rfl⟩⟩
  · cases h
    exact .inl ⟨hslash, .inr ⟨hblock, rfl, rfl⟩⟩
  · exact .inr (.inl ⟨hquote, Option.some.inj h⟩)
  · simp only [Bool.and_eq_true, decide_eq_true_eq, Bool.not_eq_true'] at hraw
    cases rest with
    | nil => cases h
    | cons q tail =>
      simp only at h
      split_ifs at h
      cases h
      exact .inr (.inr ⟨hraw.1, hraw.2, q, tail, _, rfl, rfl, rfl⟩)

/-- A literal opens no code, and its quotes lie within the text. -/
theorem literalOpening_spec {raw : Bool} {quote : UInt8} {rest : Bytes} {region : Region}
    {length : Nat} (h : literalOpening raw quote rest = (region, length)) :
    region.readsCode = false ∧ length ≤ rest.length + 1 := by
  unfold literalOpening at h
  split_ifs at h with htriple
  · cases h
    have hlength := congrArg List.length htriple
    simp only [List.length_take, List.length_cons, List.length_nil] at hlength
    exact ⟨rfl, by omega⟩
  · cases h
    exact ⟨rfl, by omega⟩

/-- A comment or a literal opens no code, and its opening lies within the text. -/
theorem opening?_spec {inWord : Bool} {text : Bytes} {region : Region} {length : Nat}
    (h : opening? inWord text = some (region, length)) :
    region.readsCode = false ∧ length ≤ text.length := by
  cases text with
  | nil => cases h
  | cons b rest =>
    rcases opening?_cases h with ⟨-, ⟨-, rfl, rfl⟩ | ⟨hblock, rfl, rfl⟩⟩ | ⟨-, hliteral⟩ |
      ⟨-, -, q, tail, quotes, rfl, hliteral, rfl⟩
    · exact ⟨rfl, by simp⟩
    · have hnonempty : rest ≠ [] := by
        rintro rfl
        cases hblock
      have := List.length_pos_of_ne_nil hnonempty
      exact ⟨rfl, by simp only [List.length_cons]; omega⟩
    · exact literalOpening_spec hliteral
    · obtain ⟨hcode, hlength⟩ := literalOpening_spec hliteral
      exact ⟨hcode, by simp only [List.length_cons]; omega⟩

/-- The length of a comment or literal is that of its opening and of what follows up to its end. -/
theorem triviaLength?_eq (inWord : Bool) (text : Bytes) :
    triviaLength? inWord text = (opening? inWord text).map fun opened =>
      (closing? [opened.1] false (text.drop opened.2)).elim text.length (opened.2 + ·) := by
  unfold triviaLength?
  cases opening? inWord text with
  | none => rfl
  | some opened =>
    simp only [closeLength?_passed opened.2, closing?, Option.map_some]
    cases closeLength? 0 0 [opened.1] false (text.drop opened.2) <;> rfl

/-- A comment or literal is not empty. -/
theorem triviaLength?_pos {inWord : Bool} {text : Bytes} {n : Nat}
    (h : triviaLength? inWord text = some n) : 0 < n := by
  rw [triviaLength?_eq, Option.map_eq_some_iff] at h
  obtain ⟨⟨region, length⟩, hopen, rfl⟩ := h
  have positive := opening?_length_pos hopen
  cases closing? [region] false (text.drop length) with
  | none =>
    cases text with
    | nil => cases hopen
    | cons b rest => simp
  | some m => simp only [Option.elim]; omega

/-- A comment or literal lies within the text. -/
theorem triviaLength?_le {inWord : Bool} {text : Bytes} {n : Nat}
    (h : triviaLength? inWord text = some n) : n ≤ text.length := by
  rw [triviaLength?_eq, Option.map_eq_some_iff] at h
  obtain ⟨⟨region, length⟩, hopen, rfl⟩ := h
  obtain ⟨-, hopening⟩ := opening?_spec hopen
  cases hclose : closing? [region] false (text.drop length) with
  | none => exact Nat.le_refl _
  | some m =>
    have := closing?_le hclose
    simp only [List.length_drop] at this
    simp only [Option.elim]
    omega

/-- An argument list passes over a comment or literal as a whole. -/
theorem closing?_arguments_trivia {inWord : Bool} {text : Bytes} {n : Nat}
    (h : triviaLength? inWord text = some n) (nested : Nat) :
    closing? [.arguments nested] inWord text =
      (closing? [.arguments nested] (wordAfter inWord (text.take n)) (text.drop n)).map
        (n + ·) := by
  rw [triviaLength?_eq, Option.map_eq_some_iff] at h
  obtain ⟨⟨region, length⟩, hopen, rfl⟩ := h
  cases text with
  | nil => cases hopen
  | cons b rest =>
    have hstep : (Region.arguments nested).step [] inWord b rest =
        ([region] ++ [.arguments nested], length) := by
      simp only [Region.step, hopen, List.singleton_append]
    rw [closing?_cons hstep, closing?_append,
      closing?_inWord (opening?_spec hopen).1 [] _ false]
    cases closing? [region] false ((b :: rest).drop length) with
    | none => simp [List.drop_of_length_le]
    | some m =>
      simp only [Option.bind_some, map_add_map, Option.elim, List.drop_drop, wordAfter_take_add]

/-- Where no comment or literal opens, an argument list passes over one byte. -/
theorem closing?_arguments_byte {inWord : Bool} {b : UInt8} {rest : Bytes}
    (h : triviaLength? inWord (b :: rest) = none) (nested : Nat) :
    closing? [.arguments nested] inWord (b :: rest) =
      (closing? (countNested .arguments Byte.openParen Byte.closeParen nested [] b)
        (Byte.isWord b) rest).map (1 + ·) := by
  rw [triviaLength?_eq, Option.map_eq_none_iff] at h
  have hstep : (Region.arguments nested).step [] inWord b rest =
      (countNested .arguments Byte.openParen Byte.closeParen nested [] b, 1) := by
    simp only [Region.step, h]
  rw [closing?_cons hstep]
  rfl

end DebugSweep.Source
