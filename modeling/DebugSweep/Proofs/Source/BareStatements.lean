import DebugSweep.Proofs.Cursor.Statements
import DebugSweep.Proofs.Source.BareRegions

/-!
# The statements of a source whose line ends have lost their carriage return

Carriage returns and newlines are blanks alike, and neither occurs in a call name, so the same
candidates stand in both texts. The scan finds the same statements, each where its offsets come to
lie (`findStatements_bareEnds`).
-/

namespace DebugSweep.Source

open Text

/-- The span where its offsets come to lie. -/
def Span.bare (text : Bytes) (span : Span) : Span :=
  ⟨bareOffset text span.start, bareOffset text span.stop⟩

/-- The candidate with the length it comes to have. -/
def Candidate.bare (text : Bytes) : Candidate → Candidate
  | .statement length => .statement (bareOffset text length)
  | .unclosed => .unclosed
  | .other => .other

/-- The same comment or literal stands at a byte that stays. -/
theorem triviaLength?_bareEnds {b : UInt8} {rest : Bytes}
    (hstays : ¬(b = carriageReturn ∧ rest.head? = some Byte.newline))
    (hplain : NoEscapedEnd (b :: rest)) (inWord : Bool) :
    triviaLength? inWord (bareEnds (b :: rest)) =
      (triviaLength? inWord (b :: rest)).map (bareOffset (b :: rest)) := by
  rw [triviaLength?_eq, triviaLength?_eq, Option.map_map]
  rw [show opening? inWord (bareEnds (b :: rest)) = opening? inWord (b :: rest) by
    rw [bareEnds_cons hstays, opening?_bareEnds]]
  cases hopen : opening? inWord (b :: rest) with
  | none => rfl
  | some opened =>
    obtain ⟨region, length⟩ := opened
    obtain ⟨hstand, hreturn⟩ := opening?_canStand hopen
    have hkeeps : KeepsFirst (b :: rest) length := .of_not_mem hreturn
    have hlength := (opening?_spec hopen).2
    simp only [Option.map_some, Function.comp_apply, hkeeps.drop_eq]
    rw [hstand.closesBare (hplain.drop length)]
    cases closing? [region] false ((b :: rest).drop length) with
    | none => exact congrArg some (bareOffset_length _).symm
    | some m =>
      simp only [Option.map_some, Option.elim]
      rw [bareOffset_add, hkeeps.bareOffset_eq hlength]

/-- No comment or literal begins with a carriage return. -/
theorem triviaLength?_carriageReturn (inWord : Bool) (rest : Bytes) :
    triviaLength? inWord (carriageReturn :: rest) = none := rfl

/-- No line end occurs in what opens a call. -/
theorem lineEnd_not_mem_callNames : ∀ name ∈ callNames,
    carriageReturn ∉ name ++ [Byte.openParen] ∧ Byte.newline ∉ name ++ [Byte.openParen] := by
  decide

/-- The same call name stands at the head of both texts. -/
theorem callOpening?_bareEnds (text : Bytes) :
    callOpening? (bareEnds text) = callOpening? text := by
  have hsame (name : Bytes) (hname : name ∈ callNames) :
      (name ++ [Byte.openParen]).isPrefixOf (bareEnds text) =
        (name ++ [Byte.openParen]).isPrefixOf text := by
    obtain ⟨hreturn, hnewline⟩ := lineEnd_not_mem_callNames name hname
    rw [Bool.eq_iff_iff, List.isPrefixOf_iff_prefix, List.isPrefixOf_iff_prefix,
      prefix_bareEnds_iff hreturn hnewline]
  rw [callOpening?, callOpening?, callNames, List.find?_cons, List.find?_cons, List.find?_cons,
    List.find?_cons, hsame _ (by decide), hsame _ (by decide)]
  rfl

/-- What opens a call stays. -/
theorem keepsFirst_of_callOpening? {text : Bytes} {opening : Nat}
    (h : callOpening? text = some opening) :
    KeepsFirst text opening ∧ opening ≤ text.length := by
  obtain ⟨name, hname, rest, htext⟩ := exists_of_callOpening? h
  have hopening : opening = name.length + 1 := by
    rw [htext, callOpening?_append hname] at h
    exact (Option.some.inj h).symm
  constructor
  · refine .of_not_mem ?_
    rw [htext, hopening, List.take_length_add_append]
    exact (lineEnd_not_mem_callNames name hname).1
  · rw [htext, hopening, List.length_append, List.length_cons]
    omega

/-- The blanks at the head of a text come to be the blanks at the head of what is left. -/
theorem length_takeWhile_bareEnds (text : Bytes) :
    ((bareEnds text).takeWhile Byte.isBlank).length =
      bareOffset text (text.takeWhile Byte.isBlank).length := by
  have hsplit := List.takeWhile_append_dropWhile (p := Byte.isBlank) (l := text)
  have hblank := List.head?_dropWhile_not Byte.isBlank text
  have hmem : ∀ b ∈ text.takeWhile Byte.isBlank, Byte.isBlank b = true :=
    fun b hb => List.mem_takeWhile_imp hb
  generalize text.takeWhile Byte.isBlank = blanks at hsplit hmem ⊢
  generalize text.dropWhile Byte.isBlank = behind at hsplit hblank
  subst hsplit
  have hbehind : (bareEnds behind).takeWhile Byte.isBlank = [] := by
    cases behind with
    | nil => rfl
    | cons b rest =>
      have hb : Byte.isBlank b = false := hblank
      have hstays : ¬(b = carriageReturn ∧ rest.head? = some Byte.newline) := by
        rintro ⟨rfl, -⟩
        cases hb
      rw [bareEnds_cons hstays, List.takeWhile_cons, hb]
      rfl
  rw [bareOffset, List.take_left, List.drop_left, bareEnds_append, List.takeWhile_append_of_pos
    fun b hb => hmem b ((bareBefore_sublist behind blanks).mem hb), hbehind, List.append_nil]

/-- The same candidate stands at the head of both texts. -/
theorem candidate_bareEnds {text : Bytes} (hplain : NoEscapedEnd text) :
    candidate (bareEnds text) = (candidate text).bare text := by
  rw [candidate, candidate, callOpening?_bareEnds]
  cases hcall : callOpening? text with
  | none => rfl
  | some opening =>
    obtain ⟨hkeeps, hlength⟩ := keepsFirst_of_callOpening? hcall
    have hstand : (Region.arguments 0).CanStand (text.drop opening) := trivial
    have hclosing := hstand.closesBare (hplain.drop opening) false
    rw [ClosesBare] at hclosing
    simp only [closeLength?_passed opening]
    rw [← closing?, ← closing?, hkeeps.drop_eq, hclosing]
    cases closing? [.arguments 0] false (text.drop opening) with
    | none => rfl
    | some closed =>
      have hclosed : opening + bareOffset (text.drop opening) closed =
          bareOffset text (opening + closed) := by
        rw [bareOffset_add, hkeeps.bareOffset_eq hlength]
      simp only [Option.map_some]
      rw [hclosed, drop_bareOffset, length_takeWhile_bareEnds, ← bareOffset_add, drop_bareOffset]
      have hends (text : Bytes) : (bareEnds text).head? = some terminator ↔
          text.head? = some terminator := head?_bareEnds_iff (by decide) (by decide)
      simp only [hends]
      split
      · rename_i hterminator
        obtain ⟨after, hafter⟩ := List.head?_eq_some_iff.mp hterminator
        rw [Candidate.bare, bareOffset_add _ _ 1, hafter, bareOffset_add]
        rfl
      · rfl

/-- It does not matter what stands before a newline. -/
theorem statementsFrom_newline (position : Nat) (atStart inWord inWord' : Bool) (rest : Bytes) :
    statementsFrom position 0 atStart inWord (Byte.newline :: rest) =
      statementsFrom position 0 atStart inWord' (Byte.newline :: rest) := by
  rw [statementsFrom_code rfl, statementsFrom_code rfl]

/-- Offsets behind a place come to lie behind the place where it comes to lie. -/
theorem Span.bare_shift (text : Bytes) (distance : Nat) (span : Span) :
    Span.bare text (Span.shift distance span) =
      Span.shift (bareOffset text distance) (Span.bare (text.drop distance) span) := by
  simp only [Span.bare, Span.shift, bareOffset_add]

/-- The statements from an offset of a text on. -/
def statementsBehind (text : Bytes) (offset : Nat) (atStart : Bool) : List Span :=
  statementsFrom offset 0 atStart (Cursor.wordBefore text offset) (text.drop offset)

/-- The scan passes over a comment, a literal or a byte, reports a statement, or stops. -/
theorem statementsFrom_eq_behind (atStart inWord : Bool) (b : UInt8) (rest : Bytes) :
    statementsFrom 0 0 atStart inWord (b :: rest) =
      match triviaLength? inWord (b :: rest) with
      | some length => statementsBehind (b :: rest) length (atStart && b == Byte.slash)
      | none =>
        match if atStart then candidate (b :: rest) else .other with
        | .statement length => ⟨0, length⟩ :: statementsBehind (b :: rest) length true
        | .unclosed => []
        | .other =>
          statementsBehind (b :: rest) 1 (if Byte.isBlank b then atStart else isBoundary b) := by
  have hbehind {length : Nat} (atStart : Bool) (hpos : 0 < length)
      (hle : length ≤ (b :: rest).length) :
      statementsFrom (0 + 1) (length - 1) atStart (Byte.isWord b) rest =
        statementsBehind (b :: rest) length atStart := by
    have hstart : (b :: rest).drop 0 = b :: rest := rfl
    have hpassed := Cursor.statementsFrom_behind hstart hpos hle 0 atStart
    rwa [Nat.zero_add length] at hpassed
  cases htrivia : triviaLength? inWord (b :: rest) with
  | some length =>
    simp only [statementsFrom, htrivia]
    exact hbehind _ (triviaLength?_pos htrivia) (triviaLength?_le htrivia)
  | none =>
    rw [statementsFrom_code htrivia]
    cases hfound : if atStart then candidate (b :: rest) else .other with
    | other => rfl
    | unclosed => rfl
    | statement length =>
      have hcandidate : candidate (b :: rest) = .statement length := by
        cases atStart with
        | true => exact hfound
        | false => cases hfound
      obtain ⟨hpos, hle⟩ := Cursor.candidate_bounds hcandidate
      simp only [hbehind true hpos hle, Nat.zero_add]

/-- If the same statements are found in what follows an offset, they are found from it on. -/
theorem statementsBehind_bareEnds {text : Bytes} {offset : Nat} {atStart : Bool}
    (h : ∀ inWord, statementsFrom 0 0 atStart inWord (bareEnds (text.drop offset)) =
      (statementsFrom 0 0 atStart inWord (text.drop offset)).map (Span.bare (text.drop offset))) :
    statementsBehind (bareEnds text) (bareOffset text offset) atStart =
      (statementsBehind text offset atStart).map (Span.bare text) := by
  have hword : statementsFrom (bareOffset text offset) 0 atStart
        (Cursor.wordBefore (bareEnds text) (bareOffset text offset)) (bareEnds (text.drop offset)) =
      statementsFrom (bareOffset text offset) 0 atStart (Cursor.wordBefore text offset)
        (bareEnds (text.drop offset)) := by
    rw [Cursor.wordBefore, take_bareOffset]
    rcases @wordAfter_bareBefore false false (text.take offset) (text.drop offset) (.inl rfl) with
      hsame | hnewline
    · rw [hsame]
      rfl
    · obtain ⟨rest, hrest⟩ := List.head?_eq_some_iff.mp hnewline
      rw [hrest]
      exact statementsFrom_newline _ _ _ _ _
  have hshift (distance : Nat) (inWord : Bool) (text : Bytes) :=
    statementsFrom_add distance 0 0 atStart inWord text
  simp only [Nat.add_zero] at hshift
  rw [statementsBehind, statementsBehind, drop_bareOffset, hword,
    hshift (bareOffset text offset), h, hshift offset, List.map_map, List.map_map]
  refine List.map_congr_left fun span _ => ?_
  exact (Span.bare_shift text offset span).symm

/-- The scan finds the same statements in a text with bare line ends. -/
theorem statementsFrom_bareEnds {text : Bytes} (hplain : NoEscapedEnd text) (atStart : Bool)
    (inWord : Bool) :
    statementsFrom 0 0 atStart inWord (bareEnds text) =
      (statementsFrom 0 0 atStart inWord text).map (Span.bare text) := by
  induction hlength : text.length using Nat.strong_induction_on
    generalizing atStart inWord text with
  | _ length ih =>
    subst hlength
    cases text with
    | nil => rfl
    | cons b rest =>
      have hbehind {offset : Nat} (atStart : Bool) (hpos : 0 < offset) :
          statementsBehind (bareEnds (b :: rest)) (bareOffset (b :: rest) offset) atStart =
            (statementsBehind (b :: rest) offset atStart).map (Span.bare (b :: rest)) := by
        refine statementsBehind_bareEnds fun inWord => ih _ ?_ (hplain.drop offset) _ _ rfl
        rw [List.length_drop, List.length_cons]
        omega
      rcases bareEnds_cases b rest with ⟨tail, rfl, rfl⟩ | hstays
      · -- the carriage return is passed over as a blank
        have hpassed : (if atStart then candidate (carriageReturn :: Byte.newline :: tail)
            else .other) = .other := by
          cases atStart <;> rfl
        rw [statementsFrom_eq_behind, triviaLength?_carriageReturn, hpassed]
        exact (statementsFrom_newline 0 atStart inWord false _).trans (hbehind atStart Nat.one_pos)
      · have hone : bareOffset (b :: rest) 1 = 1 :=
          (KeepsFirst.one hstays).bareOffset_eq (Nat.succ_le_succ (Nat.zero_le _))
        have htrivia := triviaLength?_bareEnds hstays hplain inWord
        have hcandidate := candidate_bareEnds hplain
        rw [bareEnds_cons hstays] at htrivia hcandidate hbehind ⊢
        rw [statementsFrom_eq_behind, statementsFrom_eq_behind, htrivia, hcandidate]
        cases hlength : triviaLength? inWord (b :: rest) with
        | some length => exact hbehind _ (triviaLength?_pos hlength)
        | none =>
          have hother := hbehind (if Byte.isBlank b then atStart else isBoundary b) Nat.one_pos
          rw [hone] at hother
          cases atStart with
          | false => exact hother
          | true =>
            simp only [Option.map_none, if_true]
            cases hfound : candidate (b :: rest) with
            | other => exact hother
            | unclosed => rfl
            | statement length =>
              exact congrArg _ (hbehind true (Cursor.candidate_bounds hfound).1)

/-- The statements of a text with bare line ends are those of the text, where their offsets come to
lie. -/
theorem findStatements_bareEnds {text : Bytes} (hplain : NoEscapedEnd text) :
    findStatements (bareEnds text) = (findStatements text).map (Span.bare text) :=
  statementsFrom_bareEnds hplain true false

end DebugSweep.Source
