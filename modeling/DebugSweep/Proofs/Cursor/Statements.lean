import DebugSweep.Proofs.Cursor.Lexers
import DebugSweep.Proofs.Source.Recogniser
import DebugSweep.Proofs.Text.Validity

/-!
# The scan by offsets finds the statements

On UTF-8 the scan by offsets goes wrong nowhere and finds what `findStatements` reports: an
identifier is read at once and not byte by byte, but the statements that begin inside one are none,
and it is cut out between characters, since it begins with a byte of ASCII and ends behind one.
-/

namespace DebugSweep.Cursor

open Source

section Calls

variable {text rest : Bytes} {i : Nat} {b : UInt8}

/-- The parenthesis that closes an argument list is the last byte of its region. -/
theorem closingParen?_eq (text : Bytes) (nested i : Nat) :
    closingParen? (nested + 1) text i =
      .ok ((closesAt? [.arguments nested] text i).map (· - 1)) := by
  rw [closingParen?]
  by_cases hi : i < text.length
  · obtain ⟨b, rest, h⟩ := exists_of_lt hi
    rw [dif_pos hi, triviaEnd_of_behind h fun j _ => (lexers_follow text j).1, ok_bind]
    cases hopen : opening? (wordBefore text i) (b :: rest) with
    | some opened =>
      obtain ⟨inner, length⟩ := opened
      obtain ⟨hforward, hcloses⟩ := closesAt?_opening (.arguments nested) rfl h hopen
      simp only [Option.map_some, forward_of_lt hforward, ok_bind]
      rw [hcloses, closingParen?_eq]
    | none =>
      have hstep : (Region.arguments nested).step [] (wordBefore text i) b rest =
          (countNested .arguments Byte.openParen Byte.closeParen nested [] b, 1) := by
        simp only [Region.step, hopen]
      have hnext (nested : Nat) := closingParen?_eq text nested (i + 1)
      simp only [Option.map_none, byteAt_of_drop h, ok_bind, pure_eq_ok, countDown_succ]
      rw [closesAt?_cons h hstep]
      unfold countNested
      by_cases hopener : b = Byte.openParen
      · rw [if_pos hopener, if_pos hopener]
        exact hnext (nested + 1)
      · rw [if_neg hopener, if_neg hopener]
        by_cases hcloser : b = Byte.closeParen
        · rw [if_pos hcloser, if_pos hcloser]
          cases nested with
          | zero => rw [if_pos rfl, closesAt?_nil, Option.map_some, Nat.add_sub_cancel]
          | succ nested =>
            rw [if_neg (Nat.succ_ne_zero nested)]
            exact hnext nested
        · rw [if_neg hcloser, if_neg hcloser]
          exact hnext nested
  · rw [dif_neg hi, closesAt?_of_le _ _ (Nat.le_of_not_lt hi), pure_eq_ok, Option.map_none]
termination_by text.length - i

/-- Blanks end behind the bytes of them that follow. -/
theorem blanksEnd_eq (text : Bytes) (i : Nat) :
    blanksEnd text i = .ok (i + ((text.drop i).takeWhile Byte.isBlank).length) := by
  rw [blanksEnd]
  by_cases hi : i < text.length
  · obtain ⟨b, rest, h⟩ := exists_of_lt hi
    have hnext := blanksEnd_eq text (i + 1)
    rw [drop_succ_of_drop h] at hnext
    rw [dif_pos hi, byteAt_of_drop h, ok_bind, h, List.takeWhile_cons]
    cases Byte.isBlank b with
    | true =>
      rw [if_pos rfl, if_pos rfl, hnext, List.length_cons, Nat.add_assoc, Nat.add_comm 1]
    | false => rw [if_neg Bool.false_ne_true, if_neg Bool.false_ne_true, pure_eq_ok]; rfl
  · rw [dif_neg hi, List.drop_eq_nil_of_le (Nat.le_of_not_lt hi), pure_eq_ok]
    rfl
termination_by text.length - i

/-- How a call ends that begins at an offset with this candidate. -/
def CallEnd.ofCandidate (i : Nat) : Candidate → CallEnd
  | .statement length => .statement (i + length)
  | .unclosed => .unclosed
  | .other => .expression

/-- An argument list is followed from its parenthesis on. -/
theorem closingParen?_openParen (h : text.drop i = Byte.openParen :: rest) :
    closingParen? 0 text i = .ok ((closing? [.arguments 0] false rest).map (i + ·)) := by
  have hopen : opening? (wordBefore text i) (Byte.openParen :: rest) = none := rfl
  have hword : wordBefore text (i + 1) = false := by
    rw [wordBefore_add, h]
    rfl
  rw [closingParen?, dif_pos (lt_of_drop h),
    triviaEnd_of_behind h fun j _ => (lexers_follow text j).1, hopen, Option.map_none, ok_bind]
  simp only [byteAt_of_drop h, ok_bind, if_true]
  rw [closingParen?_eq, closesAt?, hword, drop_succ_of_drop h, Option.map_map]
  congr 2
  funext n
  simp only [Function.comp_apply]
  omega

/-- A call ends as the candidate says that its name begins. -/
theorem callEnd_eq {name : Bytes} (hname : name ∈ callNames)
    (h : text.drop i = name ++ Byte.openParen :: rest) :
    callEnd text (i + name.length) = .ok (.ofCandidate i (candidate (text.drop i))) := by
  have hopen : text.drop (i + name.length) = Byte.openParen :: rest := by
    rw [← List.drop_drop, h, List.drop_left]
  have hinner : (text.drop i).drop (name.length + 1) = rest := by
    rw [List.drop_drop, ← Nat.add_assoc, drop_succ_of_drop hopen]
  have hcall : callOpening? (text.drop i) = some (name.length + 1) := by
    rw [h, callOpening?_append hname]
  rw [callEnd, closingParen?_openParen hopen, ok_bind, candidate, hcall]
  simp only [closeLength?_eq_map, List.take_zero, wordAfter_nil, List.drop_zero, hinner]
  cases closing? [.arguments 0] false rest with
  | none => rfl
  | some n =>
    have hclose : i + name.length + n + 1 = i + (name.length + 1 + 0 + n) := by omega
    simp only [Option.map_some, blanksEnd_eq, ok_bind, pure_eq_ok, List.drop_drop, List.head?_drop,
      hclose]
    generalize name.length + 1 + 0 + n = closed
    rw [← Nat.add_assoc i closed]
    split
    · rw [CallEnd.ofCandidate, Nat.add_assoc, Nat.add_assoc, Nat.add_assoc]
    · rfl

/-- An identifier ends behind the bytes of it that follow. -/
theorem wordEnd_eq (hi : i ≤ text.length) :
    wordEnd text i = .ok (i + ((text.drop i).takeWhile Byte.isWord).length) := by
  induction h : text.drop i generalizing i with
  | nil =>
    obtain rfl : i = text.length := Nat.le_antisymm hi (List.drop_eq_nil_iff.mp h)
    exact firstFrom_length _ text
  | cons b rest ih =>
    have hnext := ih (lt_of_drop h) (drop_succ_of_drop h)
    rw [wordEnd] at hnext ⊢
    rw [firstFrom_of_drop h, List.takeWhile_cons]
    cases Byte.isWord b with
    | true =>
      rw [if_neg (by simp), if_pos rfl, hnext, List.length_cons, Nat.succ_add_eq_add_succ]
    | false => rfl

/-- What is found is not empty and lies within the text. -/
theorem candidate_bounds {length : Nat} (h : candidate text = .statement length) :
    0 < length ∧ length ≤ text.length := by
  rw [candidate] at h
  cases hcall : callOpening? text with
  | none =>
    rw [hcall] at h
    cases h
  | some opening =>
    rw [hcall] at h
    simp only at h
    split at h
    · cases h
    · split at h
      · rename_i hterminator
        cases h
        obtain ⟨tail, hdrop⟩ := List.head?_eq_some_iff.mp hterminator
        have := lt_of_drop hdrop
        omega
      · cases h

/-- An identifier is taken up to the first byte that does not belong to it. -/
theorem takeWhile_isWord_append {word : Bytes} (hword : ∀ c ∈ word, Byte.isWord c = true)
    (hrest : ∀ c, rest.head? = some c → Byte.isWord c = false) :
    (word ++ rest).takeWhile Byte.isWord = word := by
  have hnone : rest.takeWhile Byte.isWord = [] := by
    cases rest with
    | nil => rfl
    | cons c rest => simp [hrest c rfl]
  rw [List.takeWhile_append_of_pos hword, hnone, List.append_nil]

/-- A call is opened by an identifier that is its name. -/
theorem callOpening?_word {word : Bytes} (hword : ∀ c ∈ word, Byte.isWord c = true)
    (hrest : ∀ c, rest.head? = some c → Byte.isWord c = false)
    (h : ¬(word ∈ callNames ∧ rest.head? = some Byte.openParen)) :
    callOpening? (word ++ rest) = none := by
  cases hcall : callOpening? (word ++ rest) with
  | none => rfl
  | some n =>
    obtain ⟨name, hname, tail, htext⟩ := exists_of_callOpening? hcall
    have hletters : ∀ c ∈ name, Byte.isWord c = true := by
      simp only [callNames, List.mem_cons, List.not_mem_nil, or_false] at hname
      rcases hname with rfl | rfl <;> exact List.all_eq_true.mp rfl
    have hsame := takeWhile_isWord_append hword hrest
    rw [htext, takeWhile_isWord_append hletters fun c hc => by cases hc; rfl] at hsame
    subst hsame
    rw [List.append_cancel_left htext] at h
    exact absurd ⟨hname, rfl⟩ h

/-- A call is opened by a byte that can begin an identifier. -/
theorem callOpening?_of_isWordStart (h : Byte.isWordStart b = false) (rest : Bytes) :
    callOpening? (b :: rest) = none := by
  cases hcall : callOpening? (b :: rest) with
  | none => rfl
  | some n =>
    obtain ⟨name, hname, tail, htext⟩ := exists_of_callOpening? hcall
    simp only [callNames, List.mem_cons, List.not_mem_nil, or_false] at hname
    rcases hname with rfl | rfl <;> cases htext <;> exact absurd h (by decide)

/-- Nothing that opens no call is a candidate. -/
theorem candidate_of_callOpening?_none (h : callOpening? text = none) : candidate text = .other := by
  rw [candidate, h]

/-- What has been found is passed over. -/
theorem statementsFrom_behind (h : text.drop i = b :: rest) {length : Nat} (hpos : 0 < length)
    (hle : length ≤ (b :: rest).length) (position : Nat) (atStart : Bool) :
    Source.statementsFrom (position + 1) (length - 1) atStart (Byte.isWord b) rest =
      Source.statementsFrom (position + length) 0 atStart (wordBefore text (i + length))
        (text.drop (i + length)) := by
  obtain ⟨n, rfl⟩ : ∃ n, length = n + 1 := ⟨length - 1, by omega⟩
  have hpassed : (rest.take n).length = n := by
    rw [List.length_cons] at hle
    exact List.length_take_of_le (by omega)
  have hskip := statementsFrom_skip (position + 1) atStart (Byte.isWord b) (rest.take n)
    (rest.drop n)
  rw [hpassed, List.take_append_drop] at hskip
  rw [Nat.add_sub_cancel, hskip, wordBefore_add, ← List.drop_drop, h, List.take_succ_cons,
    wordAfter_cons, List.drop_succ_cons, Nat.add_assoc, Nat.add_comm 1]

/-- An identifier that is no call is passed over as a whole. -/
theorem statementsFrom_behind_word (h : text.drop i = b :: rest) (hstart : Byte.isWordStart b = true)
    (position : Nat) (atStart : Bool) :
    let length := ((text.drop i).takeWhile Byte.isWord).length
    Source.statementsFrom (position + 1) 0 (if Byte.isBlank b then atStart else isBoundary b)
        (Byte.isWord b) rest =
      Source.statementsFrom (position + length) 0 false (wordBefore text (i + length))
        (text.drop (i + length)) := by
  intro length
  have hb := Byte.isWord_of_isWordStart hstart
  have hinside : ∀ c ∈ rest.takeWhile Byte.isWord, Byte.isWord c = true :=
    fun c hc => List.mem_takeWhile_imp hc
  have hlength : length = (rest.takeWhile Byte.isWord).length + 1 := by
    simp only [length, h, List.takeWhile_cons, hb, if_true, List.length_cons]
  have hsplit := List.takeWhile_append_dropWhile (p := Byte.isWord) (l := rest)
  have hword : wordBefore text (i + length) = true := by
    rw [wordBefore_add, h, hlength, List.take_succ_cons, wordAfter_cons, hb]
    nth_rewrite 2 [← hsplit]
    rw [List.take_left, wordAfter_of_forall hinside]
  have hbehind : text.drop (i + length) = rest.dropWhile Byte.isWord := by
    rw [← List.drop_drop, h, hlength, List.drop_succ_cons]
    nth_rewrite 2 [← hsplit]
    rw [List.drop_left]
  have hpassed := statementsFrom_word hinside (position + 1) (rest.dropWhile Byte.isWord)
  rw [hsplit] at hpassed
  have hposition : position + length = position + 1 + (rest.takeWhile Byte.isWord).length := by
    omega
  rw [(Byte.isWord_exclusive hb).2.2.2.2, isBoundary_of_isWord hb, hb, hword, hbehind, hposition]
  exact hpassed

end Calls

/-- An identifier is written in ASCII. -/
theorem lt_of_isWord {b : UInt8} (h : Byte.isWord b = true) : b < 0x80 := by
  simp only [Byte.isWord, Byte.isWordStart, Bool.or_eq_true, Bool.and_eq_true, decide_eq_true_eq,
    beq_iff_eq, UInt8.le_iff_toNat_le, ← UInt8.toNat_inj] at h
  rw [UInt8.lt_iff_toNat_lt]
  simp at h ⊢
  omega

/-- Between boundaries a text can be sliced. -/
theorem slice_eq {text : Bytes} {start stop : Nat} (hle : start ≤ stop) (hstop : stop ≤ text.length)
    (hfirst : Utf8.isBoundary text start = true) (hlast : Utf8.isBoundary text stop = true) :
    slice text start stop = .ok ((text.take stop).drop start) := by
  rw [slice, if_pos ⟨hle, hstop⟩, hfirst, hlast]
  rfl

/-- In UTF-8 an identifier can be cut out. -/
theorem exists_word {text rest : Bytes} {i : Nat} {b : UInt8} (hvalid : Utf8.isValid text = true)
    (h : text.drop i = b :: rest) (hstart : Byte.isWordStart b = true) :
    let word := (text.drop i).takeWhile Byte.isWord
    wordEnd text i = .ok (i + word.length) ∧ 0 < word.length ∧
      slice text i (i + word.length) = .ok word ∧
      text.drop i = word ++ text.drop (i + word.length) ∧
      (∀ c ∈ word, Byte.isWord c = true) ∧
      ∀ c, text[i + word.length]? = some c → Byte.isWord c = false := by
  intro word
  have hi := lt_of_drop h
  have hb := Byte.isWord_of_isWordStart hstart
  have hword : ∀ c ∈ word, Byte.isWord c = true := fun c hc => List.mem_takeWhile_imp hc
  have hsplit : text.drop i = word ++ (text.drop i).dropWhile Byte.isWord :=
    List.takeWhile_append_dropWhile.symm
  have hbehind : text.drop (i + word.length) = (text.drop i).dropWhile Byte.isWord := by
    rw [← List.drop_drop]
    nth_rewrite 1 [hsplit]
    rw [List.drop_left]
  have hlength : i + word.length ≤ text.length := by
    have := congrArg List.length hsplit
    rw [List.length_drop, List.length_append] at this
    omega
  have hfirst := Utf8.isBoundary_of_lt h (lt_of_isWord hb)
  have hlast := Utf8.isBoundary_add_of_forall hvalid hsplit (fun c hc => lt_of_isWord (hword c hc))
    hfirst
  have hslice := slice_eq (Nat.le_add_right i _) hlength hfirst hlast
  have hcut : (text.take (i + word.length)).drop i = word := by
    rw [List.drop_take, Nat.add_sub_cancel_left, hsplit, List.take_left]
  rw [hcut] at hslice
  refine ⟨wordEnd_eq (Nat.le_of_lt hi), ?_, hslice, hbehind ▸ hsplit, hword, fun c hc => ?_⟩
  · simp only [word, h, List.takeWhile_cons, hb, if_true, List.length_cons]
    omega
  · rw [← List.head?_drop, hbehind] at hc
    have := List.head?_dropWhile_not Byte.isWord (text.drop i)
    rw [hc] at this
    exact this

/-- From an offset on, the statements are found that are found byte by byte. -/
def FindsFrom (text : Bytes) (i : Nat) : Prop :=
  ∀ atStart, statementsFrom atStart text i =
    .ok (Source.statementsFrom i 0 atStart (wordBefore text i) (text.drop i))

section Finding

variable {text rest : Bytes} {i : Nat} {b : UInt8}

/-- A comment or literal is passed over. -/
theorem findsFrom_of_trivia (h : text.drop i = b :: rest) {length : Nat}
    (htrivia : triviaLength? (wordBefore text i) (b :: rest) = some length)
    (hbehind : ∀ j, i < j → FindsFrom text j) : FindsFrom text i := by
  intro atStart
  have hi := lt_of_drop h
  have hpos := triviaLength?_pos htrivia
  have hforward : i < i + length := Nat.lt_add_of_pos_right hpos
  rw [statementsFrom]
  simp only [dif_pos hi, byteAt_of_drop h, triviaEnd_eq hi, h, htrivia, ok_bind, Option.map_some,
    forward_of_lt hforward]
  rw [hbehind _ hforward, Source.statementsFrom, htrivia]
  simp only
  rw [statementsFrom_behind h hpos (triviaLength?_le htrivia)]

/-- A byte that begins no identifier is passed over. -/
theorem findsFrom_of_byte (h : text.drop i = b :: rest)
    (htrivia : triviaLength? (wordBefore text i) (b :: rest) = none)
    (hstart : Byte.isWordStart b = false) (hbehind : ∀ j, i < j → FindsFrom text j) :
    FindsFrom text i := by
  intro atStart
  have hi := lt_of_drop h
  have hnone := candidate_of_callOpening?_none (callOpening?_of_isWordStart hstart rest)
  have hnext := hbehind (i + 1) (Nat.lt_succ_self i)
    (if Byte.isBlank b then atStart else isBoundary b)
  rw [wordBefore_add, h, drop_succ_of_drop h] at hnext
  rw [statementsFrom]
  simp only [dif_pos hi, byteAt_of_drop h, triviaEnd_eq hi, h, htrivia, ok_bind, Option.map_none,
    statementsFrom_code htrivia, hstart, hnone, ite_self, Bool.false_eq_true, if_false]
  exact hnext

/-- An identifier is passed over, unless a statement is found at it or an unclosed call ends the
search. -/
theorem findsFrom_of_word (hvalid : Utf8.isValid text = true) (h : text.drop i = b :: rest)
    (htrivia : triviaLength? (wordBefore text i) (b :: rest) = none)
    (hstart : Byte.isWordStart b = true) (hbehind : ∀ j, i < j → FindsFrom text j) :
    FindsFrom text i := by
  intro atStart
  have hi := lt_of_drop h
  have hpassed := statementsFrom_behind_word h hstart i atStart
  obtain ⟨hend, hpos, hslice, hsplit, hword, hnone⟩ := exists_word hvalid h hstart
  generalize (text.drop i).takeWhile Byte.isWord = word at *
  have hforward : i < i + word.length := Nat.lt_add_of_pos_right hpos
  have hother := (hbehind _ hforward false).trans (congrArg Except.ok hpassed.symm)
  rw [statementsFrom]
  simp only [dif_pos hi, byteAt_of_drop h, triviaEnd_eq hi, h, htrivia, ok_bind, Option.map_none,
    statementsFrom_code htrivia, hstart, if_true, hend, hslice, forward_of_lt hforward]
  by_cases hcall : word ∈ callNames ∧ text[i + word.length]? = some Byte.openParen
  · obtain ⟨tail, htail⟩ := List.head?_eq_some_iff.mp ((List.head?_drop ..).trans hcall.2)
    rw [htail] at hsplit
    have hcallEnd := callEnd_eq hcall.1 hsplit
    rw [h] at hcallEnd
    cases atStart with
    | false =>
      simp only [Bool.false_eq_true, false_and, if_false]
      exact hother
    | true =>
      simp only [hcall, and_self, if_true, hcallEnd, ok_bind, pure_eq_ok]
      cases hcandidate : candidate (b :: rest) with
      | statement length =>
        obtain ⟨hlength, hle⟩ := candidate_bounds hcandidate
        have hstop : i < i + length := Nat.lt_add_of_pos_right hlength
        simp only [CallEnd.ofCandidate, forward_of_lt hstop, ok_bind, hbehind _ hstop true]
        rw [statementsFrom_behind h hlength hle]
      | unclosed => rfl
      | other => exact hother
  · rw [← List.head?_drop] at hcall
    have hopening := callOpening?_word hword (fun c hc => hnone c (by rwa [← List.head?_drop]))
      hcall
    rw [← hsplit, h] at hopening
    rw [if_neg fun h => hcall (List.head?_drop .. ▸ h.2), candidate_of_callOpening?_none hopening,
      ite_self]
    exact hother

end Finding

/-- On UTF-8 the scan finds what is found byte by byte. -/
theorem findsFrom (text : Bytes) (hvalid : Utf8.isValid text = true) (i : Nat) :
    FindsFrom text i := by
  by_cases hi : i < text.length
  · obtain ⟨b, rest, h⟩ := exists_of_lt hi
    have hbehind (j : Nat) (_ : i < j) : FindsFrom text j := findsFrom text hvalid j
    cases htrivia : triviaLength? (wordBefore text i) (b :: rest) with
    | some length => exact findsFrom_of_trivia h htrivia hbehind
    | none =>
      cases hstart : Byte.isWordStart b with
      | true => exact findsFrom_of_word hvalid h htrivia hstart hbehind
      | false => exact findsFrom_of_byte h htrivia hstart hbehind
  · intro atStart
    rw [statementsFrom, dif_neg hi, List.drop_eq_nil_of_le (Nat.le_of_not_lt hi), pure_eq_ok]
    rfl
termination_by text.length - i

/-- On UTF-8 the scan goes wrong nowhere and finds the statements. -/
theorem findStatements_eq {text : Bytes} (hvalid : Utf8.isValid text = true) :
    findStatements text = .ok (Source.findStatements text) :=
  findsFrom text hvalid 0 true

/-- In bytes that are not UTF-8 an identifier may have no boundary behind it. -/
example : findStatements [0x61, 0x80] = .error .insideCharacter := by cbv

end DebugSweep.Cursor
