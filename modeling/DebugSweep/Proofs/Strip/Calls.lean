import DebugSweep.Proofs.Strip.Relexing

/-!
# The calls of a textual pass

What a pass takes at a place is its name, a parenthesis, and what stands before the first `);` of
which it has met no delimiter earlier. The passes and the patterns that they stand for agree on
that, and what a pass replaces holds a terminator.
-/

namespace DebugSweep.Strip

open Source

/-- The byte up to which a pass takes the arguments. -/
def Reach.stop : Reach → UInt8
  | .narrow => Byte.closeParen
  | .broad => Byte.semicolon

/-- What lies before the first occurrence of a byte. -/
theorem takeWhile_ne_append {stop : UInt8} {before : Bytes} (h : stop ∉ before) (rest : Bytes) :
    (before ++ stop :: rest).takeWhile (· != stop) = before := by
  have hbefore : ∀ b ∈ before, (b != stop) = true :=
    fun b hb => bne_iff_ne.mpr fun heq => h (heq ▸ hb)
  rw [List.takeWhile_append_of_pos hbefore, List.takeWhile_cons, bne_self_eq_false]
  exact List.append_nil before

/-- Arguments end at the first `);` if the delimiter does not come before. -/
theorem argumentsLength?_append {reach : Reach} {inner : Bytes} (h : reach.stop ∉ inner)
    (rest : Bytes) :
    reach.argumentsLength? (inner ++ Byte.closeParen :: Byte.semicolon :: rest) =
      some (inner.length + 2) := by
  cases reach with
  | narrow =>
    have hcut : (inner ++ Byte.closeParen :: Byte.semicolon :: rest).takeWhile
        (· != Byte.closeParen) = inner := takeWhile_ne_append h (Byte.semicolon :: rest)
    simp [Reach.argumentsLength?, hcut]
  | broad =>
    have hstop : Byte.semicolon ∉ inner ++ [Byte.closeParen] := by
      rw [List.mem_append, not_or]
      exact ⟨h, by decide⟩
    have hcut := takeWhile_ne_append hstop rest
    rw [List.append_assoc, List.singleton_append] at hcut
    simp [Reach.argumentsLength?, hcut]

/-- Arguments that end do so at a `);`, and the delimiter does not come before. -/
theorem exists_of_argumentsLength? {reach : Reach} {text : Bytes} {n : Nat}
    (h : reach.argumentsLength? text = some n) :
    ∃ inner rest, text = inner ++ Byte.closeParen :: Byte.semicolon :: rest ∧
      reach.stop ∉ inner ∧ n = inner.length + 2 := by
  have hwhole {stop : UInt8} (hstop : stop ∉ text) : text.takeWhile (· != stop) = text := by
    rw [List.takeWhile_eq_self_iff]
    exact fun b hb => bne_iff_ne.mpr fun heq => hstop (heq ▸ hb)
  cases reach with
  | narrow =>
    simp only [Reach.argumentsLength?] at h
    split_ifs at h with hend
    by_cases hmem : Byte.closeParen ∈ text
    · obtain ⟨tail, -, hsplit⟩ := exists_cut hmem
      have hcut := not_mem_cut Byte.closeParen text
      generalize text.takeWhile (· != Byte.closeParen) = inner at h hend hsplit hcut
      subst hsplit
      rw [← List.drop_drop, List.drop_left, List.drop_one, List.tail_cons] at hend
      obtain ⟨rest, rfl⟩ := List.head?_eq_some_iff.mp hend
      exact ⟨inner, rest, rfl, hcut, (Option.some.inj h).symm⟩
    · rw [hwhole hmem] at hend
      simp at hend
  | broad =>
    simp only [Reach.argumentsLength?] at h
    split_ifs at h with hend
    have hmem : Byte.semicolon ∈ text := by
      by_contra hnone
      rw [hwhole hnone] at hend
      exact absurd hend.1 (Nat.lt_irrefl _)
    obtain ⟨tail, -, hsplit⟩ := exists_cut hmem
    have hcut := not_mem_cut Byte.semicolon text
    generalize text.takeWhile (· != Byte.semicolon) = taken at h hend hsplit hcut
    subst hsplit
    obtain ⟨inner, rfl⟩ := List.getLast?_eq_some_iff.mp hend.2
    rw [List.mem_append, not_or] at hcut
    refine ⟨inner, tail, by simp, hcut.1, ?_⟩
    simpa using (Option.some.inj h).symm

/-- A call of the pass with these arguments. -/
def Pass.callOf (pass : Pass) (inner : Bytes) : Bytes :=
  pass.name ++ Byte.openParen :: (inner ++ [Byte.closeParen, Byte.semicolon])

/-- A call is taken if the delimiter does not come before its end. -/
theorem callLength?_append {pass : Pass} {inner : Bytes} (h : pass.reach.stop ∉ inner)
    (rest : Bytes) :
    pass.callLength? (pass.callOf inner ++ rest) = some (pass.callOf inner).length := by
  have htext : pass.callOf inner ++ rest = (pass.name ++ [Byte.openParen]) ++
      (inner ++ Byte.closeParen :: Byte.semicolon :: rest) := by
    simp [Pass.callOf]
  have hopening : (pass.name ++ [Byte.openParen]).isPrefixOf (pass.callOf inner ++ rest) = true :=
    List.isPrefixOf_iff_prefix.mpr ⟨_, htext.symm⟩
  rw [Pass.callLength?, if_pos hopening, htext, List.drop_left, argumentsLength?_append h]
  simp only [Option.map_some, Pass.callOf, List.length_append, List.length_cons, List.length_nil]
  congr 1
  omega

/-- What is taken is a call before whose end the delimiter does not come. -/
theorem exists_of_callLength? {pass : Pass} {text : Bytes} {n : Nat}
    (h : pass.callLength? text = some n) :
    ∃ inner rest, text = pass.callOf inner ++ rest ∧ pass.reach.stop ∉ inner ∧
      n = (pass.callOf inner).length := by
  rw [Pass.callLength?] at h
  split_ifs at h with hopening
  obtain ⟨more, rfl⟩ := List.isPrefixOf_iff_prefix.mp hopening
  rw [List.drop_left, Option.map_eq_some_iff] at h
  obtain ⟨m, hm, rfl⟩ := h
  obtain ⟨inner, rest, rfl, hinner, rfl⟩ := exists_of_argumentsLength? hm
  refine ⟨inner, rest, by simp [Pass.callOf], hinner, ?_⟩
  simp only [Pass.callOf, List.length_append, List.length_cons, List.length_nil]
  omega

/-- The bytes of the call taken before are passed over. -/
theorem callsFrom_skip (pass : Pass) (position skip : Nat) (text : Bytes) :
    pass.callsFrom position skip text = pass.callsFrom (position + skip) 0 (text.drop skip) := by
  induction text generalizing position skip with
  | nil => rw [List.drop_nil]; rfl
  | cons b rest ih =>
    rcases skip with _ | skip
    · rfl
    · rw [Pass.callsFrom, ih, List.drop_succ_cons,
        show position + 1 + skip = position + (skip + 1) by omega]

/-- The calls taken lie behind the place where the text begins. -/
theorem le_start_of_mem_callsFrom {pass : Pass} {position skip : Nat} {text : Bytes} {span : Span}
    (h : span ∈ pass.callsFrom position skip text) :
    position ≤ span.start ∧ span.start ≤ span.stop := by
  induction text generalizing position skip with
  | nil => cases h
  | cons b rest ih =>
    rcases skip with _ | skip
    · rw [Pass.callsFrom] at h
      cases hcall : pass.callLength? (b :: rest) with
      | none =>
        rw [hcall] at h
        have := ih h
        omega
      | some length =>
        rw [hcall] at h
        rcases List.mem_cons.mp h with rfl | hrest
        · simp
        · have := ih hrest
          omega
    · have := ih h
      omega

/-- Where no call is taken a pass goes on behind the byte. -/
theorem callsFrom_of_none {pass : Pass} {b : UInt8} {rest : Bytes}
    (h : pass.callLength? (b :: rest) = none) (position : Nat) :
    pass.callsFrom position 0 (b :: rest) = pass.callsFrom (position + 1) 0 rest := by
  rw [Pass.callsFrom, h]

/-- No call begins at bytes with which the name does not begin. -/
theorem callsFrom_append {pass : Pass} {kept : Bytes}
    (h : ∀ b ∈ kept, (pass.name ++ [Byte.openParen]).head? ≠ some b) (position : Nat)
    (text : Bytes) :
    pass.callsFrom position 0 (kept ++ text) = pass.callsFrom (position + kept.length) 0 text := by
  induction kept generalizing position with
  | nil => rfl
  | cons b kept ih =>
    rw [List.forall_mem_cons] at h
    have hnone : pass.callLength? (b :: (kept ++ text)) = none := by
      rw [Pass.callLength?, if_neg]
      intro hopening
      obtain ⟨rest, hrest⟩ := List.isPrefixOf_iff_prefix.mp hopening
      refine h.1 ?_
      have hhead := congrArg List.head? hrest
      rwa [List.head?_append_of_ne_nil _ (by simp)] at hhead
    rw [List.cons_append, callsFrom_of_none hnone, ih h.2, List.length_cons,
      show position + 1 + kept.length = position + (kept.length + 1) by omega]

/-- A pass takes a call and goes on behind it. -/
theorem callsFrom_callOf {pass : Pass} {inner : Bytes} (h : pass.reach.stop ∉ inner)
    (position : Nat) (rest : Bytes) :
    pass.callsFrom position 0 (pass.callOf inner ++ rest) =
      ⟨position, position + (pass.callOf inner).length⟩ ::
        pass.callsFrom (position + (pass.callOf inner).length) 0 rest := by
  have hcall := callLength?_append h rest
  obtain ⟨b, tail, htext⟩ : ∃ b tail, pass.callOf inner = b :: tail :=
    List.exists_cons_of_ne_nil (by simp [Pass.callOf])
  rw [htext, List.cons_append] at hcall ⊢
  simp only [Pass.callsFrom, hcall, List.length_cons, Nat.add_sub_cancel, callsFrom_skip pass _
    tail.length, List.drop_left]
  rw [show position + 1 + tail.length = position + (tail.length + 1) by omega]

end DebugSweep.Strip
