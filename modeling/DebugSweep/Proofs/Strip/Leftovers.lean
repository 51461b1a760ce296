import DebugSweep.Proofs.Strip.Reduction

/-!
# Calls left behind by the passes

Running the passes once more can find calls again, although each pass has been over the whole text.
A later pass takes away the delimiter that kept an earlier one from taking a call, or the last
letter of a marker becomes the first one of a name. `strip_legacy_settled_iff` says that there are
no other calls to be found: each of them is owed to a marker. So the broad `print` pass never finds
anything, and stripping again leaves a text as it is if and only if no such call has come about.

The reason is that a pass takes every call it comes to. A call that it finds in its own output, or
that an earlier pass finds there, has been changed since, and bytes outside of calls do not change.
-/

namespace DebugSweep.Strip

open Source

/-- Somewhere in the text stands a call that the pass takes, if it has not passed over it. -/
structure Pass.Takes (pass : Pass) (text before inner after : Bytes) : Prop where
  text_eq : text = before ++ (pass.callOf inner ++ after)
  stop_not_mem : pass.reach.stop ∉ inner

/-- The call begins with the last letter of a marker. -/
def Pass.Straddles (pass : Pass) (before : Bytes) : Prop := marker <:+ before ++ pass.name.take 1

/-- The call has come about by a marker: it begins in one, or the pass is a narrow one and a marker
stands among the arguments. -/
def Pass.OwedToMarker (pass : Pass) (before inner : Bytes) : Prop :=
  pass.Straddles before ∨ (pass.reach = .narrow ∧ marker <:+: inner)

/-- Every call in the text that the pass takes has come about by a marker. -/
def Pass.AllOwed (pass : Pass) (text : Bytes) : Prop :=
  ∀ before inner after, pass.Takes text before inner after → pass.OwedToMarker before inner

section Runs

variable {pass : Pass} {count : Nat} {text out : Bytes}

/-- Where a pass replaces nothing it can take no call. -/
theorem Pass.Rewrites.callLength?_of_zero (h : pass.Rewrites 0 text out) {before rest : Bytes}
    (htext : text = before ++ rest) (hrest : rest ≠ []) : pass.callLength? rest = none := by
  generalize hzero : 0 = none at h
  induction h generalizing before with
  | nil => exact absurd (List.append_eq_nil_iff.mp htext.symm).2 hrest
  | kept hnone _ ih =>
    cases before with
    | nil =>
      rw [List.nil_append] at htext
      exact htext ▸ hnone
    | cons c before => exact ih (List.cons.inj htext).2 hzero
  | call => cases hzero

/-- Where a pass replaces something there is a call that it takes. -/
theorem Pass.Rewrites.exists_takes (h : pass.Rewrites count text out) (hcount : count ≠ 0) :
    ∃ before inner after, pass.Takes text before inner after := by
  induction h with
  | nil => exact absurd rfl hcount
  | @kept _ b _ _ _ _ ih =>
    obtain ⟨before, inner, after, rfl, hinner⟩ := ih hcount
    exact ⟨b :: before, inner, after, rfl, hinner⟩
  | @call _ inner before _ hinner => exact ⟨[], inner, before, rfl, hinner⟩

/-- A pass takes no call if and only if there is none in the text. -/
theorem calls_eq_nil_iff (pass : Pass) (text : Bytes) :
    pass.calls text = [] ↔ ∀ before inner after, ¬pass.Takes text before inner after := by
  have hrun := rewrites_run pass text
  constructor
  · rintro hnone before inner after ⟨htext, hinner⟩
    rw [hnone] at hrun
    have hcall := hrun.callLength?_of_zero htext (by simp [Pass.callOf])
    rw [callLength?_append hinner] at hcall
    cases hcall
  · intro hnone
    by_contra hcalls
    obtain ⟨before, inner, after, htakes⟩ :=
      hrun.exists_takes (mt List.length_eq_zero_iff.mp hcalls)
    exact hnone before inner after htakes

/-- A pass that takes no call leaves the text as it is. -/
theorem run_of_calls_eq_nil (h : pass.calls text = []) : pass.run text = ⟨text, 0⟩ := by
  have hrun := rewrites_run pass text
  have hremoved := removed_run_le pass text
  rw [h] at hrun hremoved
  exact congrArg₂ Stripped.mk hrun.replaced.eq_of_zero (Nat.le_zero.mp hremoved)

/-- A pass that leaves the text as it is takes no call. -/
theorem calls_eq_nil_of_text_run (h : (pass.run text).text = text) : pass.calls text = [] := by
  have hconsumed := (consumed_calls pass text).terminator
  rw [h] at hconsumed
  exact List.length_eq_zero_iff.mp (by omega)

/-- Passes leave a text as it is if and only if none of them takes a call in it. -/
theorem runPasses_eq_self_iff (passes : List Pass) (text : Bytes) :
    runPasses passes text = ⟨text, 0⟩ ↔ ∀ pass ∈ passes, pass.calls text = [] := by
  induction passes with
  | nil => simp [runPasses]
  | cons pass passes ih =>
    rw [List.forall_mem_cons, ← ih]
    constructor
    · intro hsame
      rw [runPasses_cons, Stripped.mk.injEq] at hsame
      obtain ⟨htext, hremoved⟩ := hsame
      -- what the first pass takes away no other one brings back
      have hlater := (consumed_runPasses passes (pass.run text).text).reduced
      rw [htext] at hlater
      have hsame := (hlater.antisymm (consumed_calls pass text).reduced).symm
      have hnone := calls_eq_nil_of_text_run hsame
      rw [run_of_calls_eq_nil hnone, Nat.zero_add] at hremoved
      rw [run_of_calls_eq_nil hnone] at htext
      exact ⟨hnone, congrArg₂ Stripped.mk htext hremoved⟩
    · rintro ⟨hnone, hothers⟩
      rw [runPasses_cons, run_of_calls_eq_nil hnone]
      simp only [hothers]

end Runs

section Surfacing

variable {pass : Pass} {count : Nat} {text before after : Bytes}

/-- A byte that is no letter of a marker, or only its last one, has been kept where it stands in the
output, unless a marker ends there that has been put in the place of a call. -/
theorem Pass.Rewrites.exists_kept {b : UInt8} (hb : b ∉ marker.dropLast)
    (h : pass.Rewrites count text (before ++ b :: after)) :
    (marker <:+ before ++ [b] ∧
      ∃ first second n, text = first ++ terminator :: second ∧ pass.Rewrites n second after) ∨
    ∃ first second m n, text = first ++ b :: second ∧
      RangesReplaced pass.IsCall m first before ∧ pass.Rewrites n second after ∧
        pass.callLength? (b :: second) = none := by
  generalize hout : before ++ b :: after = out at h
  induction h generalizing before with
  | nil => simp at hout
  | @kept count c rest out hnone hrest ih =>
    cases before with
    | nil =>
      obtain ⟨rfl, rfl⟩ := List.cons.inj hout
      exact .inr ⟨[], rest, 0, count, rfl, .nil, hrest, hnone⟩
    | cons c' before =>
      obtain ⟨rfl, htail⟩ := List.cons.inj hout
      rcases ih htail with ⟨hmarker, first, second, n, rfl, hsecond⟩ |
        ⟨first, second, m, n, rfl, hfirst, hsecond, hnone⟩
      · exact .inl ⟨hmarker.trans (List.suffix_cons _ _), c' :: first, second, n, rfl, hsecond⟩
      · exact .inr ⟨c' :: first, second, m, n, rfl, .kept c' hfirst, hsecond, hnone⟩
  | @call count inner rest out hinner hrest ih =>
    have hbehind (more : Bytes) (hmore : more ++ b :: after = out) :
        (marker <:+ marker ++ more ++ [b] ∧ ∃ first second n,
          pass.callOf inner ++ rest = first ++ terminator :: second ∧
            pass.Rewrites n second after) ∨
        ∃ first second m n, pass.callOf inner ++ rest = first ++ b :: second ∧
          RangesReplaced pass.IsCall m first (marker ++ more) ∧ pass.Rewrites n second after ∧
            pass.callLength? (b :: second) = none := by
      rcases ih hmore with ⟨hmarker, first, second, n, rfl, hsecond⟩ |
        ⟨first, second, m, n, rfl, hfirst, hsecond, hnone⟩
      · refine .inl ⟨?_, pass.callOf inner ++ first, second, n, by rw [List.append_assoc], hsecond⟩
        rw [List.append_assoc]
        exact hmarker.trans (List.suffix_append _ _)
      · refine .inr ⟨pass.callOf inner ++ first, second, m + 1, n, ?_, ?_, hsecond, hnone⟩
        · rw [List.append_assoc]
        · exact .range ⟨inner, hinner, rfl⟩ hfirst
    rcases List.append_eq_append_iff.mp hout with ⟨more, hmarker, hmore⟩ | ⟨more, rfl, hmore⟩
    · cases more with
      | nil =>
        rw [List.append_nil] at hmarker
        subst hmarker
        simpa only [List.append_nil] using hbehind [] hmore
      | cons c more =>
        obtain ⟨rfl, hafter⟩ := List.cons.inj hmore
        cases more with
        | nil =>
          obtain rfl : after = out := hafter
          refine .inl ⟨hmarker ▸ List.suffix_rfl,
            pass.name ++ Byte.openParen :: (inner ++ [Byte.closeParen]), rest, count, ?_, hrest⟩
          simp [Pass.callOf]
        | cons d more =>
          refine absurd ?_ hb
          rw [hmarker, List.dropLast_append_cons]
          simp
    · exact hbehind more hmore.symm

/-- Text without a slash has been kept where it begins at a place that has been kept. -/
theorem Pass.Rewrites.exists_word {word : Bytes} (hword : Byte.slash ∉ word)
    (h : pass.Rewrites count text (word ++ after)) :
    ∃ rest, text = word ++ rest ∧ pass.Rewrites count rest after := by
  induction word generalizing text with
  | nil => exact ⟨text, rfl, h⟩
  | cons b word ih =>
    rw [List.mem_cons, not_or] at hword
    rw [List.cons_append] at h
    generalize hout : b :: (word ++ after) = out at h
    cases h with
    | nil => cases hout
    | kept hnone hrest =>
      obtain ⟨rfl, rfl⟩ := List.cons.inj hout
      obtain ⟨rest, rfl, hafter⟩ := ih hword.2 hrest
      exact ⟨rest, rfl, hafter⟩
    | call hinner hrest => exact absurd (List.cons.inj hout).1.symm hword.1

/-- Text that begins with no letter of a marker and holds no slash has been kept wherever it stands
in the output. -/
theorem Pass.Rewrites.infix_source {b : UInt8} {word out : Bytes} (hb : b ∉ marker)
    (hword : Byte.slash ∉ word) (h : pass.Rewrites count text out)
    (hwritten : b :: word <:+: out) : b :: word <:+: text := by
  obtain ⟨before, after, rfl⟩ := hwritten
  rw [List.append_assoc, List.cons_append] at h
  rcases h.exists_kept fun hmem => hb (List.dropLast_subset _ hmem) with
    ⟨hmarker, -⟩ | ⟨first, second, m, n, rfl, -, hsecond, -⟩
  · -- a marker does not end with a byte that it does not hold
    have hlast := hmarker.getLast (by decide)
    rw [List.getLast_concat] at hlast
    exact absurd (hlast ▸ List.getLast_mem (by decide)) hb
  · obtain ⟨rest, rfl, -⟩ := hsecond.exists_word hword
    exact ⟨first, rest, by simp⟩

/-- What stands between two calls where the first one gives way to a marker that becomes the
beginning of the second: the terminator, and the name without its first letter. -/
def Pass.seam (pass : Pass) : Bytes := terminator :: (pass.name.drop 1 ++ [Byte.openParen])

/-- The name of a call in the output has been kept with its parenthesis, unless it begins with the
last letter of a marker that has been put there. -/
theorem Pass.Rewrites.exists_opening {later : Pass} (hname : pass.name ∈ callNames)
    (h : later.Rewrites count text (before ++ (pass.name ++ Byte.openParen :: after))) :
    (pass.Straddles before ∧ pass.seam <:+: text) ∨ ∃ first second m n,
      text = first ++ (pass.name ++ Byte.openParen :: second) ∧
        RangesReplaced later.IsCall m first before ∧ later.Rewrites n second after ∧
          later.callLength? (pass.name ++ Byte.openParen :: second) = none := by
  obtain ⟨b, tail, hsplit, hb, htail⟩ : ∃ b tail, pass.name = b :: tail ∧ b ∉ marker.dropLast ∧
      Byte.slash ∉ tail ++ [Byte.openParen] := by
    simp only [callNames, List.mem_cons, List.not_mem_nil, or_false] at hname
    rcases hname with hname | hname <;> rw [hname] <;> exact ⟨_, _, rfl, by decide, by decide⟩
  rw [hsplit, List.cons_append, List.append_cons tail] at h
  rw [Straddles, seam, hsplit]
  rcases h.exists_kept hb with ⟨hmarker, first, second, n, rfl, hsecond⟩ |
    ⟨first, second, m, n, rfl, hfirst, hsecond, hnone⟩
  · obtain ⟨rest, rfl, -⟩ := hsecond.exists_word htail
    exact .inl ⟨hmarker, first, rest, by simp⟩
  · obtain ⟨rest, rfl, hrest⟩ := hsecond.exists_word htail
    rw [← List.append_cons] at hnone ⊢
    exact .inr ⟨first, rest, m, n, rfl, hfirst, hrest, hnone⟩

/-- The end of a call in the output has been kept, and its arguments too, unless they hold a
marker. -/
theorem Pass.Rewrites.exists_closing {inner : Bytes}
    (h : pass.Rewrites count text (inner ++ Byte.closeParen :: Byte.semicolon :: after)) :
    marker <:+: inner ∨
      ∃ rest, text = inner ++ Byte.closeParen :: Byte.semicolon :: rest := by
  generalize hout : inner ++ Byte.closeParen :: Byte.semicolon :: after = out at h
  induction h generalizing inner with
  | nil => simp at hout
  | @kept count b rest out hnone hrest ih =>
    cases inner with
    | nil =>
      obtain ⟨rfl, rfl⟩ := List.cons.inj hout
      obtain ⟨rest, rfl, -⟩ := hrest.exists_word (show Byte.slash ∉ [Byte.semicolon] by decide)
      exact .inr ⟨rest, rfl⟩
    | cons c inner =>
      obtain ⟨rfl, htail⟩ := List.cons.inj hout
      rcases ih htail with hmarker | ⟨rest, rfl⟩
      · exact .inl (hmarker.trans (List.suffix_cons c inner).isInfix)
      · exact .inr ⟨rest, rfl⟩
  | call hinner hrest _ =>
    rcases List.append_eq_append_iff.mp hout with ⟨more, hmarker, hmore⟩ | ⟨more, rfl, -⟩
    · cases more with
      | nil => exact .inl ((List.append_nil inner ▸ hmarker) ▸ List.infix_rfl)
      | cons c more =>
        obtain ⟨rfl, -⟩ := List.cons.inj hmore
        have hparen : Byte.closeParen ∈ marker := by
          rw [hmarker]
          simp
        exact absurd hparen (by decide)
    · exact .inl (List.prefix_append marker more).isInfix

/-- Arguments without a terminator come from arguments without one, in the output of a broad
pass. -/
theorem Pass.Rewrites.exists_broad_closing (hreach : pass.reach = .broad)
    (hname : terminator ∉ pass.name) {inner : Bytes} (hinner : terminator ∉ inner)
    (h : pass.Rewrites count text (inner ++ Byte.closeParen :: Byte.semicolon :: after)) :
    ∃ inner' rest, text = inner' ++ Byte.closeParen :: Byte.semicolon :: rest ∧
      terminator ∉ inner' := by
  generalize hout : inner ++ Byte.closeParen :: Byte.semicolon :: after = out at h
  induction h generalizing inner with
  | nil => simp at hout
  | @kept count b rest out hnone hrest ih =>
    cases inner with
    | nil =>
      obtain ⟨rfl, rfl⟩ := List.cons.inj hout
      obtain ⟨rest, rfl, -⟩ := hrest.exists_word (show Byte.slash ∉ [Byte.semicolon] by decide)
      exact ⟨[], rest, rfl, List.not_mem_nil⟩
    | cons c inner =>
      obtain ⟨rfl, htail⟩ := List.cons.inj hout
      rw [List.mem_cons, not_or] at hinner
      obtain ⟨inner', rest, rfl, hinner'⟩ := ih hinner.2 htail
      exact ⟨c :: inner', rest, rfl, by simpa using ⟨hinner.1, hinner'⟩⟩
  | @call _ inner' rest _ hinner' _ _ =>
    -- the call that is replaced here ends at the first terminator
    rw [hreach] at hinner'
    refine ⟨pass.name ++ Byte.openParen :: inner', rest, by simp [Pass.callOf], ?_⟩
    simp only [List.mem_append, List.mem_cons, not_or]
    exact ⟨hname, by decide, hinner'⟩

end Surfacing

/-- No terminator stands in a name. -/
theorem terminator_not_mem_of_mem_callNames {name : Bytes} (h : name ∈ callNames) :
    terminator ∉ name := by
  simp only [callNames, List.mem_cons, List.not_mem_nil, or_false] at h
  rcases h with rfl | rfl <;> decide

section Invariants

variable {first later : Pass} {text before inner after : Bytes}

/-- A call of the first pass in the output of the later one has come about by a marker, or it was
there before and the passes differ. A marker that it begins in has been put before the rest of its
name. Broad calls are told apart only behind a broad pass. -/
theorem Pass.Takes.of_run (hfirst : first.name ∈ callNames) (hlater : later.name ∈ callNames)
    (hreach : first.reach = .narrow ∨ later.reach = .broad)
    (h : first.Takes (later.run text).text before inner after) :
    (first.Straddles before ∧ first.seam <:+: text) ∨
      (first.reach = .narrow ∧ marker <:+: inner) ∨
      (later ≠ first ∧ ∃ before' inner' after' count, first.Takes text before' inner' after' ∧
        RangesReplaced later.IsCall count before' before ∧
          (first.reach = .narrow → inner' = inner)) := by
  obtain ⟨htext, hstop⟩ := h
  have hrun := rewrites_run later text
  rw [htext, show first.callOf inner ++ after = first.name ++ Byte.openParen ::
    (inner ++ Byte.closeParen :: Byte.semicolon :: after) by simp [Pass.callOf]] at hrun
  rcases hrun.exists_opening hfirst with
    hstraddles | ⟨before', following, m, n, rfl, hbefore, hfollowing, hnone⟩
  · exact .inl hstraddles
  · -- whatever has been kept is a call of the first pass where the later one took none
    have hkept {inner' after' : Bytes}
        (hclosing : following = inner' ++ Byte.closeParen :: Byte.semicolon :: after')
        (hstop' : first.reach.stop ∉ inner') :
        later ≠ first ∧ first.Takes (before' ++ (first.name ++ Byte.openParen :: following))
          before' inner' after' := by
      have hcall : first.name ++ Byte.openParen :: following =
          first.callOf inner' ++ after' := by
        simp [hclosing, Pass.callOf]
      refine ⟨?_, by rw [hcall], hstop'⟩
      rintro rfl
      rw [hcall, callLength?_append hstop'] at hnone
      cases hnone
    cases hnarrow : first.reach with
    | narrow =>
      rcases hfollowing.exists_closing with hmarker | ⟨after', hclosing⟩
      · exact .inr (.inl ⟨rfl, hmarker⟩)
      · obtain ⟨hne, htakes⟩ := hkept hclosing hstop
        exact .inr (.inr ⟨hne, before', inner, after', m, htakes, hbefore, fun _ => rfl⟩)
    | broad =>
      rw [hnarrow] at hreach hstop
      obtain ⟨inner', after', hclosing, hinner'⟩ := hfollowing.exists_broad_closing
        (hreach.resolve_left Reach.noConfusion) (terminator_not_mem_of_mem_callNames hlater) hstop
      obtain ⟨hne, htakes⟩ := hkept hclosing (by rwa [hnarrow])
      exact .inr (.inr ⟨hne, before', inner', after', m, htakes, hbefore, Reach.noConfusion⟩)

/-- A call that a pass finds in its own output has come about by a marker, and a marker that it
begins in has been put before the rest of its name. -/
theorem Pass.Takes.of_run_self {pass : Pass} (hname : pass.name ∈ callNames)
    (h : pass.Takes (pass.run text).text before inner after) :
    (pass.Straddles before ∧ pass.seam <:+: text) ∨
      (pass.reach = .narrow ∧ marker <:+: inner) := by
  have hreach : pass.reach = .narrow ∨ pass.reach = .broad := by
    cases pass.reach
    · exact .inl rfl
    · exact .inr rfl
  exact (h.of_run hname hname hreach).imp_right fun h => h.resolve_right fun h => h.1 rfl

/-- In its own output a pass finds calls only that have come about by a marker. -/
theorem allOwed_run_self {pass : Pass} (hname : pass.name ∈ callNames) (text : Bytes) :
    pass.AllOwed (pass.run text).text :=
  fun _ _ _ htakes => (htakes.of_run_self hname).imp_left And.left

/-- A later pass adds no others. -/
theorem Pass.AllOwed.run (hfirst : first.name ∈ callNames) (hlater : later.name ∈ callNames)
    (hreach : first.reach = .narrow ∨ later.reach = .broad) (h : first.AllOwed text) :
    first.AllOwed (later.run text).text := by
  intro before inner after htakes
  rcases htakes.of_run hfirst hlater hreach with
    ⟨hstraddles, -⟩ | hmarker | ⟨-, before', inner', after', count, htakes, hbefore, hinner⟩
  · exact .inl hstraddles
  · exact .inr hmarker
  · rcases h before' inner' after' htakes with hstraddles | ⟨hnarrow, hmarker⟩
    · have hends (range : Bytes) (hrange : later.IsCall range) :
          range.getLast? = some terminator := (holdsCall_of_isCall hrange).getLast?
      have hmarker : terminator ∉ marker := by decide
      exact .inl ((hbefore.append (.refl (first.name.take 1))).suffix hends hmarker hstraddles)
    · exact .inr ⟨hnarrow, hinner hnarrow ▸ hmarker⟩

/-- No other passes add any. -/
theorem Pass.AllOwed.runPasses (hfirst : first.name ∈ callNames) {passes : List Pass}
    (hpasses : ∀ later ∈ passes,
      later.name ∈ callNames ∧ (first.reach = .narrow ∨ later.reach = .broad))
    (h : first.AllOwed text) : first.AllOwed (runPasses passes text).text := by
  induction passes generalizing text with
  | nil => exact h
  | cons pass passes ih =>
    rw [List.forall_mem_cons] at hpasses
    rw [runPasses_cons]
    exact ih hpasses.2 (h.run hfirst hpasses.1.1 hpasses.1.2)

/-- After several passes, no broad one of which comes before a narrow one, each of them finds calls
only that have come about by a marker. -/
theorem allOwed_runPasses {passes : List Pass} (hnames : ∀ pass ∈ passes, pass.name ∈ callNames)
    (horder : passes.Pairwise fun first later => first.reach = .narrow ∨ later.reach = .broad)
    {pass : Pass} (hpass : pass ∈ passes) (text : Bytes) :
    pass.AllOwed (runPasses passes text).text := by
  induction passes generalizing text with
  | nil => cases hpass
  | cons first passes ih =>
    rw [List.forall_mem_cons] at hnames
    rw [List.pairwise_cons] at horder
    rw [runPasses_cons]
    rcases List.mem_cons.mp hpass with rfl | hpass
    · exact (allOwed_run_self hnames.1 text).runPasses hnames.1
        fun later hlater => ⟨hnames.2 later hlater, horder.1 later hlater⟩
    · exact ih hnames.2 horder.2 hpass _

end Invariants

/-- Only the longer name begins with the last letter of a marker. -/
theorem Pass.Straddles.name_eq {pass : Pass} (hname : pass.name ∈ callNames) {before : Bytes}
    (h : pass.Straddles before) : pass.name = ascii "debugPrint" := by
  simp only [callNames, List.mem_cons, List.not_mem_nil, or_false] at hname
  refine hname.resolve_left fun hprint => ?_
  have hletter : (ascii "print").take 1 = [0x70] := rfl
  rw [Pass.Straddles, hprint, hletter] at h
  have hlast := h.getLast (by decide)
  rw [List.getLast_concat] at hlast
  exact absurd hlast (by decide)

/-- The passes come in such an order. -/
theorem passes_ordered :
    (∀ pass ∈ passes, pass.name ∈ callNames) ∧
      passes.Pairwise fun first later => first.reach = .narrow ∨ later.reach = .broad := by
  decide

/-- Whatever a pass would take in a text that has been stripped is a call of the longer name that
begins with the last letter of a marker, or a narrow pass takes it and its arguments hold a marker
and a terminator. Stripping again leaves the text as it is, and reports nothing, if and only if no
pass would take anything. -/
theorem strip_legacy_settled_iff (text : Bytes) :
    let out := (strip .legacy text).text
    (∀ pass ∈ passes, ∀ before inner after, pass.Takes out before inner after →
      (pass.name = ascii "debugPrint" ∧ pass.Straddles before) ∨
        (pass.reach = .narrow ∧ marker <:+: inner ∧ terminator ∈ inner)) ∧
    (strip .legacy out = ⟨out, 0⟩ ↔
      ∀ pass ∈ passes, ∀ before inner after, ¬pass.Takes out before inner after) := by
  obtain ⟨hnames, horder⟩ := passes_ordered
  constructor
  · intro pass hpass before inner after htakes
    have hstraddles (h : pass.Straddles before) :=
      And.intro (h.name_eq (hnames pass hpass)) h
    rcases allOwed_runPasses hnames horder hpass text before inner after htakes with
      hstart | ⟨hnarrow, hmarker⟩
    · exact .inl (hstraddles hstart)
    · by_cases hterminator : terminator ∈ inner
      · exact .inr ⟨hnarrow, hmarker, hterminator⟩
      · -- the broad pass of the same name takes the call too
        have hbroad : ∀ pass ∈ passes, ⟨pass.name, .broad⟩ ∈ passes := by decide
        have howed := allOwed_runPasses hnames horder (hbroad pass hpass) text before inner after
          ⟨htakes.text_eq, hterminator⟩
        exact .inl (hstraddles (howed.resolve_right fun h => Reach.noConfusion h.1))
  · simp only [strip, runPasses_eq_self_iff, calls_eq_nil_iff]

/-- Stripping again can change a text: what the first time is taken from inside a call's arguments
kept the call from being taken. -/
theorem not_strip_legacy_idempotent :
    ¬∀ text : Bytes, strip .legacy (strip .legacy text).text = ⟨(strip .legacy text).text, 0⟩ := by
  intro h
  have hagain := h (ascii "print('a; print(f(x)); b');")
  revert hagain
  decide

end DebugSweep.Strip
