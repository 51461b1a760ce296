import DebugSweep.Proofs.Source.Concatenation
import DebugSweep.Proofs.Text.BareEnds

/-!
# Reading a source whose line ends have lost their carriage return

Every region treats a carriage return before a newline as it treats any byte that means nothing to
it, and an identifier ends before either. The regions of a text therefore close where they close in
the text with bare line ends (`ClosesBare`), unless an escape takes in the carriage return in the
one and the newline in the other. A line comment is one byte shorter, which is why it is followed
apart from the other regions; whatever comes after it begins with the newline in both texts, where
it does not matter what stood before.
-/

namespace DebugSweep.Source

open Text

theorem ne_of_isQuote {b : UInt8} (h : Byte.isQuote b = true) :
    b ≠ carriageReturn ∧ b ≠ Byte.newline := by
  simp only [Byte.isQuote, Bool.or_eq_true, beq_iff_eq] at h
  rcases h with rfl | rfl <;> decide

/-- Two quotes begin what is left if and only if they begin the text. -/
theorem take_two_bareEnds_iff {quote : UInt8} (h : Byte.isQuote quote = true) {rest : Bytes} :
    (bareEnds rest).take 2 = [quote, quote] ↔ rest.take 2 = [quote, quote] := by
  have hword (text : Bytes) : text.take 2 = [quote, quote] ↔ [quote, quote] <+: text := by
    rw [List.prefix_iff_eq_take, eq_comm]
    rfl
  obtain ⟨hreturn, hnewline⟩ := ne_of_isQuote h
  rw [hword, hword,
    prefix_bareEnds_iff (by simpa using hreturn.symm) (by simpa using hnewline.symm)]

/-- The same literal begins. -/
theorem literalOpening_bareEnds (raw : Bool) {quote : UInt8} (h : Byte.isQuote quote = true)
    (rest : Bytes) : literalOpening raw quote (bareEnds rest) = literalOpening raw quote rest := by
  simp only [literalOpening, take_two_bareEnds_iff h]

/-- The same comment or literal opens. -/
theorem opening?_bareEnds (inWord : Bool) (b : UInt8) (rest : Bytes) :
    opening? inWord (b :: bareEnds rest) = opening? inWord (b :: rest) := by
  have hslash : (bareEnds rest).head? = some Byte.slash ↔ rest.head? = some Byte.slash :=
    head?_bareEnds_iff (by decide) (by decide)
  have hstar : (bareEnds rest).head? = some Byte.star ↔ rest.head? = some Byte.star :=
    head?_bareEnds_iff (by decide) (by decide)
  simp only [opening?, hslash, hstar]
  split_ifs with _ _ _ hquote
  · rfl
  · rfl
  · rfl
  · rw [literalOpening_bareEnds false hquote]
  · cases rest with
    | nil => rfl
    | cons q tail =>
      rcases bareEnds_cases q tail with ⟨behind, rfl, rfl⟩ | hstays
      · rfl
      · rw [bareEnds_cons hstays]
        simp only
        split_ifs with hquote
        · rw [literalOpening_bareEnds true hquote]
        · rfl
  · rfl

/-- Whether a region can stand where the text goes on so: a line comment goes on with its second
slash, and a literal is delimited by quotes. -/
def Region.CanStand (text : Bytes) : Region → Prop
  | .lineComment => text.head? = some Byte.slash
  | .literal quote _ _ => Byte.isQuote quote = true
  | .arguments _ | .interpolation _ | .blockComment _ => True

/-- A literal is delimited by quotes, and its opening stays. -/
theorem literalOpening_canStand {raw : Bool} {quote : UInt8} (hquote : Byte.isQuote quote = true)
    {rest : Bytes} {region : Region} {length : Nat}
    (h : literalOpening raw quote rest = (region, length)) (text : Bytes) :
    region.CanStand text ∧ carriageReturn ∉ (quote :: rest).take length := by
  have hreturn := (ne_of_isQuote hquote).1.symm
  rw [literalOpening] at h
  split_ifs at h with htriple <;> cases h
  · exact ⟨hquote, by simp [htriple, hreturn]⟩
  · exact ⟨hquote, by simpa using hreturn⟩

/-- A comment or literal that opens can stand behind its opening, and the opening stays. -/
theorem opening?_canStand {inWord : Bool} {b : UInt8} {rest : Bytes} {region : Region}
    {length : Nat} (h : opening? inWord (b :: rest) = some (region, length)) :
    region.CanStand ((b :: rest).drop length) ∧ carriageReturn ∉ (b :: rest).take length := by
  simp only [opening?] at h
  split_ifs at h with hslash hline hblock hquote hraw
  · cases h
    exact ⟨hline, by simp [hslash]; decide⟩
  · cases h
    obtain ⟨tail, rfl⟩ := List.head?_eq_some_iff.mp hblock
    exact ⟨trivial, by simp [hslash]; decide⟩
  · exact literalOpening_canStand hquote (Option.some.inj h) _
  · cases rest with
    | nil => cases h
    | cons q tail =>
      simp only at h
      split_ifs at h with hquote
      cases h
      obtain ⟨hstand, hreturn⟩ := literalOpening_canStand hquote (Prod.eta _).symm _
      refine ⟨hstand, ?_⟩
      rw [List.take_succ_cons, List.mem_cons, not_or]
      simp only [Bool.and_eq_true, decide_eq_true_eq] at hraw
      exact ⟨by rw [hraw.1]; decide, hreturn⟩

/-- What can stand where a text goes on in one way can stand anywhere, a line comment apart. -/
theorem Region.CanStand.of_ne {region : Region} {text : Bytes} (h : region.CanStand text)
    (hline : region ≠ .lineComment) (text' : Bytes) : region.CanStand text' := by
  cases region with
  | lineComment => exact absurd rfl hline
  | literal quote triple raw => exact h
  | arguments nested => trivial
  | interpolation nested => trivial
  | blockComment nested => trivial

/-- The regions that are open after a step inside a region, none, one or the region with another
one inside it, can stand where the step ends. -/
def Region.LeavesOpen (region : Region) (text : Bytes) (next : List Region) : Prop :=
  next = [] ∨ (∃ inner, next = [inner] ∧ inner.CanStand text) ∨
    ∃ inner, next = [inner, region] ∧ inner.CanStand text

/-- Counting braces or parentheses leaves at most one region open. -/
theorem leavesOpen_countNested {make : Nat → Region}
    (hmake : ∀ nested text, (make nested).CanStand text)
    (region : Region) (opener closer : UInt8) (nested : Nat) (b : UInt8) (text : Bytes) :
    region.LeavesOpen text (countNested make opener closer nested [] b) := by
  unfold countNested
  split
  · exact .inr (.inl ⟨_, rfl, hmake _ _⟩)
  · split
    · cases nested with
      | zero => exact .inl rfl
      | succ nested => exact .inr (.inl ⟨_, rfl, hmake _ _⟩)
    · exact .inr (.inl ⟨_, rfl, hmake _ _⟩)

/-- A step is the same step in the text with bare line ends: what it passes over stays, and what it
leaves open can stand behind it. -/
structure Region.StepsBare (region : Region) (inWord : Bool) (b : UInt8) (rest : Bytes)
    (next : List Region) (length : Nat) : Prop where
  step_eq : region.step [] inWord b (bareEnds rest) = (next, length)
  keepsFirst : KeepsFirst (b :: rest) length
  leavesOpen : region.LeavesOpen ((b :: rest).drop length) next

section Steps

variable {inWord : Bool} {b : UInt8} {rest : Bytes} {next : List Region} {length : Nat}
  (hstays : ¬(b = carriageReturn ∧ rest.head? = some Byte.newline))
include hstays

/-- Between literals, where parentheses or braces are counted. -/
theorem stepsBare_code {region : Region} (make : Nat → Region) {opener closer : UInt8}
    {nested : Nat} (hmake : ∀ nested text, (make nested).CanStand text)
    (hcode : ∀ rest, region.step [] inWord b rest =
      match opening? inWord (b :: rest) with
      | some (inner, length) => ([inner, region], length)
      | none => (countNested make opener closer nested [] b, 1))
    (h : region.step [] inWord b rest = (next, length)) :
    region.StepsBare inWord b rest next length := by
  have hbare := hcode (bareEnds rest)
  rw [hcode] at h
  rw [opening?_bareEnds] at hbare
  cases hopen : opening? inWord (b :: rest) with
  | none =>
    rw [hopen] at h hbare
    cases h
    exact ⟨hbare, .one hstays, leavesOpen_countNested hmake _ _ _ _ _ _⟩
  | some opened =>
    rw [hopen] at h hbare
    cases h
    obtain ⟨hinner, hreturn⟩ := opening?_canStand hopen
    exact ⟨hbare, .of_not_mem hreturn, .inr (.inr ⟨_, rfl, hinner⟩)⟩

theorem stepsBare_blockComment {nested : Nat}
    (h : (Region.blockComment nested).step [] inWord b rest = (next, length)) :
    (Region.blockComment nested).StepsBare inWord b rest next length := by
  have hslash : (bareEnds rest).head? = some Byte.slash ↔ rest.head? = some Byte.slash :=
    head?_bareEnds_iff (by decide) (by decide)
  have hstar : (bareEnds rest).head? = some Byte.star ↔ rest.head? = some Byte.star :=
    head?_bareEnds_iff (by decide) (by decide)
  have hbare : (Region.blockComment nested).step [] inWord b (bareEnds rest) = (next, length) := by
    rw [← h]
    simp only [Region.step, hslash, hstar]
  simp only [Region.step] at h
  split_ifs at h with hopen hclose
  · cases h
    obtain ⟨rfl, hrest⟩ := hopen
    obtain ⟨tail, rfl⟩ := List.head?_eq_some_iff.mp hrest
    exact ⟨hbare, .of_not_mem (by simp; decide), .inr (.inl ⟨_, rfl, trivial⟩)⟩
  · obtain ⟨rfl, hrest⟩ := hclose
    obtain ⟨tail, rfl⟩ := List.head?_eq_some_iff.mp hrest
    cases nested with
    | zero =>
      cases h
      exact ⟨hbare, .of_not_mem (by simp; decide), .inl rfl⟩
    | succ nested =>
      cases h
      exact ⟨hbare, .of_not_mem (by simp; decide), .inr (.inl ⟨_, rfl, trivial⟩)⟩
  · cases h
    exact ⟨hbare, .one hstays, .inr (.inl ⟨_, rfl, trivial⟩)⟩

/-- An escape takes in no line end of two bytes. -/
theorem stepsBare_literal {quote : UInt8} {triple raw : Bool} (hquote : Byte.isQuote quote = true)
    (hplain : NoEscapedEnd (b :: rest))
    (h : (Region.literal quote triple raw).step [] inWord b rest = (next, length)) :
    (Region.literal quote triple raw).StepsBare inWord b rest next length := by
  have hbrace : (bareEnds rest).head? = some Byte.openBrace ↔ rest.head? = some Byte.openBrace :=
    head?_bareEnds_iff (by decide) (by decide)
  have hreturn := (ne_of_isQuote hquote).1.symm
  have hbare :
      (Region.literal quote triple raw).step [] inWord b (bareEnds rest) = (next, length) := by
    rw [← h]
    simp only [Region.step, hbrace, take_two_bareEnds_iff hquote]
  simp only [Region.step] at h
  split_ifs at h with hescape hinterpolation hend htriple hnewline
  · cases h
    obtain ⟨rfl, -⟩ := hescape
    exact ⟨hbare, hplain.keepsFirst, .inr (.inl ⟨_, rfl, hquote⟩)⟩
  · cases h
    obtain ⟨rfl, -, hrest⟩ := hinterpolation
    obtain ⟨tail, rfl⟩ := List.head?_eq_some_iff.mp hrest
    exact ⟨hbare, .of_not_mem (by simp; decide), .inr (.inr ⟨_, rfl, trivial⟩)⟩
  · cases h
    exact ⟨hbare, .one hstays, .inl rfl⟩
  · cases h
    obtain ⟨rfl, hrest⟩ := htriple
    exact ⟨hbare, .of_not_mem (by simp [hrest, hreturn]), .inl rfl⟩
  · cases h
    exact ⟨hbare, .one hstays, .inl rfl⟩
  · cases h
    exact ⟨hbare, .one hstays, .inr (.inl ⟨_, rfl, hquote⟩)⟩

/-- A step at a byte that stays, inside a region other than a line comment, is the same step. -/
theorem Region.CanStand.stepsBare {region : Region} (hstand : region.CanStand (b :: rest))
    (hline : region ≠ .lineComment) (hplain : NoEscapedEnd (b :: rest))
    (h : region.step [] inWord b rest = (next, length)) :
    region.StepsBare inWord b rest next length := by
  cases region with
  | lineComment => exact absurd rfl hline
  | arguments nested =>
    exact stepsBare_code hstays .arguments (fun _ _ => trivial) (fun _ => rfl) h
  | interpolation nested =>
    exact stepsBare_code hstays .interpolation (fun _ _ => trivial) (fun _ => rfl) h
  | blockComment nested => exact stepsBare_blockComment hstays h
  | literal quote triple raw => exact stepsBare_literal hstays hstand hplain h

end Steps

/-- The regions close in the text with bare line ends where they close in the text. -/
def ClosesBare (regions : List Region) (inWord : Bool) (text : Bytes) : Prop :=
  closing? regions inWord (bareEnds text) = (closing? regions inWord text).map (bareOffset text)

/-- What stands before a newline does not matter. -/
theorem closing?_newline (regions : List Region) (inWord inWord' : Bool) (rest : Bytes) :
    closing? regions inWord (Byte.newline :: rest) =
      closing? regions inWord' (Byte.newline :: rest) := by
  cases regions with
  | nil => simp
  | cons region outer =>
    have hstep : region.step outer inWord Byte.newline rest =
        region.step outer inWord' Byte.newline rest := by
      cases region <;> rfl
    obtain ⟨n, hn⟩ : ∃ n, (region.step outer inWord Byte.newline rest).2 = n + 1 :=
      ⟨_, (Nat.succ_pred_eq_of_pos (Region.step_length_pos region outer inWord _ rest)).symm⟩
    have hnext : region.step outer inWord Byte.newline rest =
        ((region.step outer inWord Byte.newline rest).1, n + 1) := Prod.ext rfl hn
    rw [closing?_cons hnext, closing?_cons (hstep.symm.trans hnext)]
    rfl

/-- Whether an identifier byte stands directly before does not change, unless a newline follows. -/
theorem wordAfter_bareBefore {inWord inWord' : Bool} {text rest : Bytes}
    (h : inWord' = inWord ∨ (text ++ rest).head? = some Byte.newline) :
    wordAfter inWord' (bareBefore rest text) = wordAfter inWord text ∨
      rest.head? = some Byte.newline := by
  induction text generalizing inWord inWord' with
  | nil =>
    rcases h with rfl | h
    · exact .inl rfl
    · exact .inr h
  | cons b text ih =>
    rw [bareBefore]
    split
    · rename_i hdropped
      exact ih (.inr hdropped.2)
    · exact ih (.inl rfl)

/-- Where the same regions are followed from an offset on, they close at the same place. -/
theorem closing?_drop_bareOffset (regions : List Region) (inWord : Bool) (text : Bytes)
    (offset : Nat) :
    closing? regions (wordAfter inWord ((bareEnds text).take (bareOffset text offset)))
        ((bareEnds text).drop (bareOffset text offset)) =
      closing? regions (wordAfter inWord (text.take offset)) (bareEnds (text.drop offset)) := by
  rw [take_bareOffset, drop_bareOffset]
  rcases @wordAfter_bareBefore inWord inWord (text.take offset) (text.drop offset) (.inl rfl) with
    hword | hnewline
  · rw [hword]
  · obtain ⟨rest, hrest⟩ := List.head?_eq_some_iff.mp hnewline
    rw [hrest]
    exact closing?_newline _ _ _ _

namespace ClosesBare

theorem no_regions (inWord : Bool) (text : Bytes) : ClosesBare [] inWord text := by
  rw [ClosesBare, closing?_no_regions, closing?_no_regions]
  rfl

theorem no_text (region : Region) (outer : List Region) (inWord : Bool) :
    ClosesBare (region :: outer) inWord [] := rfl

/-- The inner regions close where they did, and so do the outer ones behind them. -/
theorem append {inner outer : List Region} {inWord : Bool} {text : Bytes}
    (hinner : ClosesBare inner inWord text)
    (houter : ∀ n, closing? inner inWord text = some n →
      ClosesBare outer (wordAfter inWord (text.take n)) (text.drop n)) :
    ClosesBare (inner ++ outer) inWord text := by
  rw [ClosesBare, closing?_append, closing?_append, hinner]
  cases hclose : closing? inner inWord text with
  | none => rfl
  | some n =>
    simp only [Option.map_some, Option.bind_some]
    rw [closing?_drop_bareOffset, houter n hclose, Option.map_map, Option.map_map]
    congr 1
    funext m
    exact (bareOffset_add text n m).symm

/-- The regions that a step leaves open close where they did, if the step is the same and what it
passes over stays. -/
theorem of_step {region : Region} {inWord : Bool} {b : UInt8} {rest : Bytes} {next : List Region}
    {length : Nat} (hstays : ¬(b = carriageReturn ∧ rest.head? = some Byte.newline))
    (hstep : region.step [] inWord b rest = (next, length))
    (hbare : region.step [] inWord b (bareEnds rest) = (next, length))
    (hkeeps : KeepsFirst (b :: rest) length)
    (hnext : ClosesBare next (wordAfter inWord ((b :: rest).take length))
      ((b :: rest).drop length)) : ClosesBare [region] inWord (b :: rest) := by
  have htake := hkeeps.take_eq
  have hdrop := hkeeps.drop_eq
  rw [bareEnds_cons hstays] at htake hdrop
  rw [ClosesBare, bareEnds_cons hstays, closing?_cons hbare, closing?_cons hstep, htake, hdrop,
    hnext, Option.map_map, Option.map_map]
  by_cases hlength : length ≤ (b :: rest).length
  · congr 1
    funext m
    rw [Function.comp_apply, Function.comp_apply, bareOffset_add, hkeeps.bareOffset_eq hlength]
  · -- an escape at the end of the text, behind which nothing closes
    cases next with
    | nil => exact absurd (Region.step_length_le hstep) hlength
    | cons inner others =>
      rw [List.drop_eq_nil_of_le (Nat.le_of_not_le hlength), closing?_nil]
      rfl

/-- A line comment ends before its newline, with or without a carriage return there. -/
theorem lineComment {b : UInt8} {rest : Bytes}
    (hstays : ¬(b = carriageReturn ∧ rest.head? = some Byte.newline)) (inWord : Bool) :
    ClosesBare [.lineComment] inWord (b :: rest) := by
  induction rest generalizing b inWord with
  | nil =>
    rw [ClosesBare, bareEnds_cons hstays]
    rfl
  | cons c tail ih =>
    have hends {c : UInt8} {tail : Bytes} (inWord : Bool) (hnewline : c = Byte.newline) :
        closing? [.lineComment] inWord (b :: c :: tail) = some 1 := by
      subst hnewline
      exact closing?_cons rfl
    have hgoes {c : UInt8} {tail : Bytes} (hnewline : c ≠ Byte.newline) :
        Region.lineComment.step [] inWord b (c :: tail) = ([.lineComment], 1) := by
      simp [Region.step, hnewline]
    rcases bareEnds_cases c tail with ⟨behind, rfl, rfl⟩ | hnext
    · have hreturn :
          Region.lineComment.step [] inWord b (carriageReturn :: Byte.newline :: behind) =
            ([.lineComment], 1) := hgoes (by decide)
      have hoffset : bareOffset (b :: carriageReturn :: Byte.newline :: behind) (1 + 1) = 1 := by
        rw [bareOffset_add, (KeepsFirst.one hstays).bareOffset_eq (by simp)]
        rfl
      have hclose : closing? [.lineComment] inWord (b :: carriageReturn :: Byte.newline :: behind) =
          some (1 + 1) := by
        rw [closing?_cons hreturn]
        exact congrArg _ (closing?_cons rfl)
      rw [ClosesBare, bareEnds_cons hstays, bareEnds_carriageReturn, hends inWord rfl, hclose,
        Option.map_some, hoffset]
    · by_cases hnewline : c = Byte.newline
      · subst hnewline
        rw [ClosesBare, bareEnds_cons hstays, bareEnds_newline, hends inWord rfl, hends inWord rfl,
          Option.map_some, (KeepsFirst.one hstays).bareOffset_eq (by simp)]
      · refine of_step hstays (hgoes hnewline) ?_ (.one hstays) (ih hnext _)
        rw [bareEnds_cons hnext]
        exact hgoes hnewline

/-- At a carriage return before a newline every region but a line comment goes on with the
newline. -/
theorem carriageReturn {region : Region} {rest : Bytes} (hline : region ≠ .lineComment)
    (hstand : region.CanStand (Text.carriageReturn :: Byte.newline :: rest))
    (h : ClosesBare [region] false (Byte.newline :: rest)) (inWord : Bool) :
    ClosesBare [region] inWord (Text.carriageReturn :: Byte.newline :: rest) := by
  have hstep :
      region.step [] inWord Text.carriageReturn (Byte.newline :: rest) = ([region], 1) := by
    cases region with
    | lineComment => exact absurd rfl hline
    | literal quote triple raw =>
      have hquote := (ne_of_isQuote hstand).1.symm
      have hbackslash : Text.carriageReturn ≠ Byte.backslash := by decide
      have hdollar : Text.carriageReturn ≠ Byte.dollar := by decide
      have hnewline : Text.carriageReturn ≠ Byte.newline := by decide
      simp only [Region.step, hbackslash, hdollar, hquote, hnewline, false_and, ↓reduceIte]
    | arguments nested => rfl
    | interpolation nested => rfl
    | blockComment nested => rfl
  have hoffset (n : Nat) :
      bareOffset (Text.carriageReturn :: Byte.newline :: rest) (1 + n) =
        bareOffset (Byte.newline :: rest) n := by
    rw [bareOffset_add]
    exact Nat.zero_add _
  rw [ClosesBare, bareEnds_newline] at h
  rw [ClosesBare, bareEnds_carriageReturn, closing?_newline _ inWord false, h, closing?_cons hstep,
    Option.map_map]
  congr 1
  funext n
  exact (hoffset n).symm

end ClosesBare

/-- Every region closes in the text with bare line ends where it closes in the text, as long as no
line end is escaped. -/
theorem Region.CanStand.closesBare {region : Region} {text : Bytes} (hstand : region.CanStand text)
    (hplain : NoEscapedEnd text) (inWord : Bool) : ClosesBare [region] inWord text := by
  induction hlength : text.length using Nat.strong_induction_on
    generalizing region inWord text with
  | _ length ih =>
    subst hlength
    cases text with
    | nil => exact .no_text _ _ _
    | cons b rest =>
      rcases bareEnds_cases b rest with ⟨tail, rfl, rfl⟩ | hstays
      · have hline : region ≠ .lineComment := by
          rintro rfl
          cases hstand
        have hnext := ih _ (by simp) (hstand.of_ne hline _) hplain.tail false rfl
        exact .carriageReturn hline hstand hnext inWord
      · by_cases hline : region = .lineComment
        · subst hline
          exact .lineComment hstays inWord
        · have positive := Region.step_length_pos region [] inWord b rest
          cases hstep : region.step [] inWord b rest with
          | mk next length =>
            rw [hstep] at positive
            obtain ⟨hbare, hkeeps, hopen⟩ := hstand.stepsBare hstays hline hplain hstep
            have hshorter : ((b :: rest).drop length).length < (b :: rest).length := by
              rw [List.length_drop, List.length_cons]
              omega
            refine .of_step hstays hstep hbare hkeeps ?_
            rcases hopen with rfl | ⟨inner, rfl, hinner⟩ | ⟨inner, rfl, hinner⟩
            · exact .no_regions _ _
            · exact ih _ hshorter hinner (hplain.drop length) _ rfl
            · refine ClosesBare.append (ih _ hshorter hinner (hplain.drop length) _ rfl) ?_
              intro n _
              refine ih _ ?_ (hstand.of_ne hline _) ((hplain.drop length).drop n) _ rfl
              rw [List.length_drop]
              omega

end DebugSweep.Source
