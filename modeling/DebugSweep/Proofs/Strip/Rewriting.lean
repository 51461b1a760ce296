import DebugSweep.Proofs.Strip.Calls
import DebugSweep.Proofs.Strip.Ranges

/-!
# What a pass makes of a text

`Pass.Rewrites` follows a pass byte by byte and call by call, without offsets: a byte is kept where
no call is taken, and a call that is taken gives way to the marker. What a pass does can thus be
proved by induction on it.
-/

namespace DebugSweep.Strip

open Source

/-- The second text is what the pass makes of the first one, with as many calls taken. -/
inductive Pass.Rewrites (pass : Pass) : Nat → Bytes → Bytes → Prop
  | nil : pass.Rewrites 0 [] []
  | kept {count : Nat} {b : UInt8} {before after : Bytes}
      (hnone : pass.callLength? (b :: before) = none) (hrest : pass.Rewrites count before after) :
      pass.Rewrites count (b :: before) (b :: after)
  | call {count : Nat} {inner before after : Bytes} (hinner : pass.reach.stop ∉ inner)
      (hrest : pass.Rewrites count before after) :
      pass.Rewrites (count + 1) (pass.callOf inner ++ before) (marker ++ after)

/-- The ranges that a pass replaces. -/
def Pass.IsCall (pass : Pass) (range : Bytes) : Prop :=
  ∃ inner, pass.reach.stop ∉ inner ∧ range = pass.callOf inner

/-- A pass replaces calls. -/
theorem Pass.Rewrites.replaced {pass : Pass} {count : Nat} {before after : Bytes}
    (h : pass.Rewrites count before after) : RangesReplaced pass.IsCall count before after := by
  induction h with
  | nil => exact .nil
  | kept _ _ ih => exact .kept _ ih
  | call hinner _ ih => exact .range ⟨_, hinner, rfl⟩ ih

/-- Replacing the calls that a pass takes is rewriting the text. -/
theorem rewrites_callsFrom (pass : Pass) (position : Nat) (text : Bytes) :
    pass.Rewrites (pass.callsFrom position 0 text).length text
      (replaceFrom position (pass.callsFrom position 0 text) text) := by
  induction hlength : text.length using Nat.strong_induction_on generalizing position text with
  | _ length ih =>
    subst hlength
    cases text with
    | nil => exact .nil
    | cons b rest =>
      cases hcall : pass.callLength? (b :: rest) with
      | none =>
        have hrest := ih rest.length (by simp) (position + 1) rest rfl
        have hkept : replaceFrom position (pass.callsFrom (position + 1) 0 rest) (b :: rest) =
            b :: replaceFrom (position + 1) (pass.callsFrom (position + 1) 0 rest) rest :=
          @replaceFrom_append position _ [b] (fun _ hspan => le_start_of_mem_callsFrom hspan) rest
        rw [callsFrom_of_none hcall, hkept]
        exact .kept hcall hrest
      | some length =>
        obtain ⟨inner, after, htext, hinner, -⟩ := exists_of_callLength? hcall
        have hshorter : after.length < (b :: rest).length := by
          rw [htext, List.length_append, Pass.callOf, List.length_append, List.length_cons]
          omega
        have hafter := ih after.length hshorter (position + (pass.callOf inner).length) after rfl
        rw [htext, callsFrom_callOf hinner, replaceFrom]
        simpa using Pass.Rewrites.call hinner hafter

/-- What a pass does is rewriting. -/
theorem rewrites_run (pass : Pass) (text : Bytes) :
    pass.Rewrites (pass.calls text).length text (pass.run text).text :=
  rewrites_callsFrom pass 0 text

/-- What a pass makes of a text is determined. -/
theorem Pass.Rewrites.unique {pass : Pass} {m n : Nat} {text first second : Bytes}
    (h : pass.Rewrites m text first) (h' : pass.Rewrites n text second) :
    m = n ∧ first = second := by
  induction h generalizing n second with
  | nil =>
    generalize htext : ([] : Bytes) = text at h'
    cases h' with
    | nil => exact ⟨rfl, rfl⟩
    | kept => cases htext
    | call => simp [Pass.callOf] at htext
  | @kept count b before after hnone _ ih =>
    generalize htext : b :: before = text at h'
    cases h' with
    | nil => cases htext
    | kept _ hrest =>
      obtain ⟨rfl, rfl⟩ := List.cons.inj htext
      obtain ⟨rfl, rfl⟩ := ih hrest
      exact ⟨rfl, rfl⟩
    | call hinner =>
      rw [htext, callLength?_append hinner] at hnone
      cases hnone
  | @call count inner before after hinner _ ih =>
    have hcall := callLength?_append hinner before
    generalize htext : pass.callOf inner ++ before = text at h' hcall
    cases h' with
    | nil => simp [Pass.callOf] at htext
    | kept hnone =>
      rw [hnone] at hcall
      cases hcall
    | call hinner' hrest =>
      rw [callLength?_append hinner', Option.some.injEq] at hcall
      obtain ⟨-, rfl⟩ := List.append_inj htext hcall.symm
      obtain ⟨rfl, rfl⟩ := ih hrest
      exact ⟨rfl, rfl⟩

/-- A pass that rewrites a text so takes as many calls and leaves this text. -/
theorem Pass.Rewrites.run_eq {pass : Pass} {count : Nat} {before after : Bytes}
    (h : pass.Rewrites count before after) :
    pass.run before = ⟨after, match pass.reach with | .narrow => count | .broad => 0⟩ := by
  obtain ⟨hcalls, htext⟩ := (rewrites_run pass before).unique h
  rw [← hcalls, ← htext]
  rfl

/-- A pass counts no more calls than it takes. -/
theorem removed_run_le (pass : Pass) (text : Bytes) :
    (pass.run text).removed ≤ (pass.calls text).length := by
  rw [Pass.run]
  cases pass.reach with
  | narrow => exact Nat.le_refl _
  | broad => exact Nat.zero_le _

/-- The first of several passes runs on the text, and the others on what it leaves. -/
theorem runPasses_cons (pass : Pass) (passes : List Pass) (text : Bytes) :
    runPasses (pass :: passes) text =
      ⟨(runPasses passes (pass.run text).text).text,
        (pass.run text).removed + (runPasses passes (pass.run text).text).removed⟩ := by
  have hfold (passes : List Pass) (done : Stripped) :
      passes.foldl (fun done pass =>
        let next := pass.run done.text
        { next with removed := done.removed + next.removed }) done =
      ⟨(runPasses passes done.text).text,
        done.removed + (runPasses passes done.text).removed⟩ := by
    induction passes generalizing done with
    | nil => rfl
    | cons pass passes ih =>
      have hrun : runPasses (pass :: passes) done.text = _ :=
        ih ⟨(pass.run done.text).text, 0 + (pass.run done.text).removed⟩
      rw [List.foldl_cons, ih, hrun]
      simp only [Nat.zero_add, Nat.add_assoc]
  have hrun : runPasses (pass :: passes) text = _ :=
    hfold passes ⟨(pass.run text).text, 0 + (pass.run text).removed⟩
  rw [hrun, Nat.zero_add]

/-- Passes run one after the other in two parts. -/
theorem runPasses_append (first second : List Pass) (text : Bytes) :
    runPasses (first ++ second) text =
      ⟨(runPasses second (runPasses first text).text).text,
        (runPasses first text).removed +
          (runPasses second (runPasses first text).text).removed⟩ := by
  induction first generalizing text with
  | nil =>
    have hnone : runPasses [] text = ⟨text, 0⟩ := rfl
    rw [List.nil_append, hnone, Nat.zero_add]
  | cons pass first ih => rw [List.cons_append, runPasses_cons, ih, runPasses_cons, Nat.add_assoc]

end DebugSweep.Strip
