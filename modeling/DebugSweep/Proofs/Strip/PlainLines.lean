import DebugSweep.Proofs.Source.Callless
import DebugSweep.Proofs.Source.PlainArguments
import DebugSweep.Proofs.Strip.Rewriting
import DebugSweep.Proofs.Strip.WholeCall

/-!
# Plain lines

A source in which every call of debug output stands on a line of its own, with plain arguments, and
every other line neither quotes nor comments nor calls anything of these names and ends where a
statement can begin. On such sources both strategies do the same: they replace every call and count
it.

The scan is at each line where it was at the first one, since every line leaves it where a
statement can begin and outside of words. A pass finds the calls of its name only, because no name
is the end of another; so `PlainLine.text` says what a line looks like once the calls of some names
have been replaced, and a pass adds its name to them.
-/

namespace DebugSweep.Strip

open Source

/-- A line with a call of debug output and nothing else, without its newline. -/
structure CallLine where
  indent : Bytes
  name : Bytes
  arguments : Bytes
  indent_blank : ∀ b ∈ indent, b = 0x20 ∨ b = 0x09
  name_mem : name ∈ callNames
  arguments_plain : PlainArguments arguments
  /-- No interpolation begins among the arguments. -/
  arguments_constant : ¬interpolationOpening <:+: arguments

/-- A line without quotes, slashes and calls of debug output, without its newline. -/
structure CodeLine where
  text : Bytes
  quote_not_mem : ∀ b ∈ text, Byte.isQuote b = false
  slash_not_mem : Byte.slash ∉ text
  newline_not_mem : Byte.newline ∉ text
  no_call : ∀ name ∈ callNames, ¬name ++ [Byte.openParen] <:+: text
  /-- The last byte that is no blank ends a statement or opens or closes a block. -/
  last_boundary : ∀ b ∈ (text.filter (!Byte.isBlank ·)).getLast?, isBoundary b = true

/-- A line of a plain source. -/
inductive PlainLine where
  | call (line : CallLine)
  | code (line : CodeLine)

/-- The call of a line with its terminator. -/
def CallLine.call (line : CallLine) : Bytes :=
  line.name ++ Byte.openParen :: (line.arguments ++ [Byte.closeParen, Byte.semicolon])

namespace PlainLine

/-- Whether the line holds a call of debug output. -/
def isCall : PlainLine → Bool
  | .call _ => true
  | .code _ => false

/-- The name that is called. -/
def name? : PlainLine → Option Bytes
  | .call line => some line.name
  | .code _ => none

/-- The line where the calls of these names have been replaced by the marker. -/
def text (replaced : List Bytes) : PlainLine → Bytes
  | .call line => line.indent ++ if line.name ∈ replaced then marker else line.call
  | .code line => line.text

end PlainLine

/-- The lines, each with its newline, where the calls of these names have been replaced. -/
def textOfLines (replaced : List Bytes) (lines : List PlainLine) : Bytes :=
  lines.flatMap fun line => line.text replaced ++ [Byte.newline]

@[simp] theorem textOfLines_cons (replaced : List Bytes) (line : PlainLine)
    (lines : List PlainLine) :
    textOfLines replaced (line :: lines) =
      line.text replaced ++ ([Byte.newline] ++ textOfLines replaced lines) := by
  rw [textOfLines, List.flatMap_cons, List.append_assoc]
  rfl

/-! ### What the lines do not hold -/

/-- No name is the end of another one. -/
theorem eq_of_suffix_callNames :
    ∀ first ∈ callNames, ∀ second ∈ callNames, first <:+ second → first = second := by
  decide

/-- No name holds a blank. -/
theorem not_mem_callNames {b : UInt8} (hb : Byte.isBlank b = true) :
    ∀ name ∈ callNames, b ∉ name := by
  intro name hname hmem
  have hnames : ∀ name ∈ callNames, name.all (!Byte.isBlank ·) = true := by decide
  have hblank := List.all_eq_true.mp (hnames name hname) b hmem
  rw [hb] at hblank
  cases hblank

/-- The indentation of a line consists of blanks. -/
theorem CallLine.isBlank_of_mem_indent (line : CallLine) {b : UInt8} (h : b ∈ line.indent) :
    Byte.isBlank b = true := by
  rcases line.indent_blank b h with rfl | rfl <;> rfl

/-- No call begins in the indentation of a line. -/
theorem CallLine.noCallBegins_indent (line : CallLine) {name : Bytes} (hname : name ∈ callNames)
    (rest : Bytes) : NoCallBegins name line.indent rest := by
  refine noCallBegins_of_not_mem (fun b hb hmem => ?_) rest
  have hblank := line.isBlank_of_mem_indent hb
  rcases List.mem_append.mp hmem with hmem | hmem
  · exact not_mem_callNames hblank name hname hmem
  · cases List.mem_singleton.mp hmem
    cases hblank

/-- Plain arguments consist of inert bytes and quotes. -/
theorem not_mem_of_plainArguments {stop : UInt8} {arguments : Bytes}
    (h : PlainArguments arguments) (hinert : Byte.isInert stop = false)
    (hquote : Byte.isQuote stop = false) : stop ∉ arguments := by
  induction h with
  | nil => exact List.not_mem_nil
  | byte hb _ ih =>
    rw [List.mem_cons, not_or]
    refine ⟨?_, ih⟩
    rintro rfl
    rw [hinert] at hb
    cases hb
  | @literal quote body text hq _ hbody _ ih =>
    have hne : stop ≠ quote := by
      rintro rfl
      rw [hquote] at hq
      cases hq
    have hnone : stop ∉ body := by
      intro hmem
      have := hbody stop hmem
      rw [hinert] at this
      cases this
    simp [hne, hnone, ih]

/-- The only parenthesis that a call line opens is that of its call. -/
theorem CallLine.openParen_not_mem (line : CallLine) :
    Byte.openParen ∉ line.indent ++ line.name ∧
      Byte.openParen ∉ line.arguments ++ [Byte.closeParen, Byte.semicolon] := by
  have hindent : Byte.openParen ∉ line.indent := by
    intro hmem
    cases line.isBlank_of_mem_indent hmem
  have hname : Byte.openParen ∉ line.name := by
    have hnames : ∀ name ∈ callNames, Byte.openParen ∉ name := by decide
    exact hnames line.name line.name_mem
  have harguments : Byte.openParen ∉ line.arguments :=
    not_mem_of_plainArguments line.arguments_plain rfl rfl
  rw [List.mem_append, List.mem_append, not_or, not_or]
  exact ⟨⟨hindent, hname⟩, harguments, by decide⟩

/-- A call line opens no call of another name. -/
theorem CallLine.not_infix_call (line : CallLine) {name : Bytes} (hname : name ∈ callNames)
    (hne : line.name ≠ name) : ¬name ++ [Byte.openParen] <:+: line.indent ++ line.call := by
  rintro ⟨before, after, heq⟩
  obtain ⟨hfront, hback⟩ := line.openParen_not_mem
  have hsplit : (line.indent ++ line.name) ++
      Byte.openParen :: (line.arguments ++ [Byte.closeParen, Byte.semicolon]) =
        (before ++ name) ++ Byte.openParen :: after := by
    simpa [CallLine.call] using heq.symm
  obtain ⟨hnames, -, -⟩ := (List.append_cons_inj_of_notMem hfront hback).mp hsplit
  have hends : name <:+ line.indent ++ line.name := ⟨before, hnames.symm⟩
  rcases List.suffix_or_suffix_of_suffix hends (List.suffix_append line.indent line.name) with
    hshorter | hlonger
  · exact hne (eq_of_suffix_callNames name hname line.name line.name_mem hshorter).symm
  · exact hne (eq_of_suffix_callNames line.name line.name_mem name hname hlonger)

/-- A line opens a call of a name only if it is a call line of that name and its call has not been
replaced. -/
theorem PlainLine.not_infix_text (line : PlainLine) {name : Bytes} (hname : name ∈ callNames)
    {replaced : List Bytes} (h : line.name? = some name → name ∈ replaced) :
    ¬name ++ [Byte.openParen] <:+: line.text replaced := by
  cases line with
  | code line => exact line.no_call name hname
  | call line =>
    by_cases hreplaced : line.name ∈ replaced
    · have hmarker : Byte.openParen ∉ line.indent ++ marker := by
        rw [List.mem_append, not_or]
        exact ⟨fun hmem => line.openParen_not_mem.1 (List.mem_append_left _ hmem), by decide⟩
      rw [PlainLine.text, if_pos hreplaced]
      exact fun hoccurs => hmarker (hoccurs.mem (by simp))
    · have hne : line.name ≠ name := by
        rintro rfl
        exact hreplaced (h rfl)
      rw [PlainLine.text, if_neg hreplaced]
      exact line.not_infix_call hname hne

/-! ### The passes -/

/-- A pass keeps a stretch in which no call of its name begins. -/
theorem Pass.Rewrites.kept_append {pass : Pass} {count : Nat} {kept before after : Bytes}
    (h : NoCallBegins pass.name kept before) (hrest : pass.Rewrites count before after) :
    pass.Rewrites count (kept ++ before) (kept ++ after) := by
  induction kept with
  | nil => exact hrest
  | cons b kept ih =>
    have hnone : pass.callLength? (b :: (kept ++ before)) = none := by
      rw [Pass.callLength?, if_neg fun hbegins => h.1 (List.isPrefixOf_iff_prefix.mp hbegins)]
    exact .kept hnone (ih h.2)

/-- In a line that does not call a name, and where its call has been replaced, the name makes no
difference. -/
theorem PlainLine.text_cons (line : PlainLine) {name : Bytes} {replaced : List Bytes}
    (h : line.name? = some name → name ∈ replaced) :
    line.text (name :: replaced) = line.text replaced := by
  cases line with
  | code line => rfl
  | call line =>
    have hmem : line.name ∈ name :: replaced ↔ line.name ∈ replaced := by
      rw [List.mem_cons, or_iff_right_iff_imp]
      rintro rfl
      exact h rfl
    simp only [PlainLine.text, hmem]

/-- A pass replaces the call of a line that calls its name. -/
theorem CallLine.rewrites (line : CallLine) {pass : Pass} (hname : line.name = pass.name)
    {count : Nat} {before after : Bytes} (hrest : pass.Rewrites count before after) :
    pass.Rewrites (count + 1) (line.indent ++ (line.call ++ ([Byte.newline] ++ before)))
      (line.indent ++ (marker ++ ([Byte.newline] ++ after))) := by
  have hmem : pass.name ∈ callNames := hname ▸ line.name_mem
  have hcall : line.call = pass.callOf line.arguments := by
    rw [CallLine.call, hname]
    rfl
  have hstop : pass.reach.stop ∉ line.arguments := by
    cases pass.reach <;> exact not_mem_of_plainArguments line.arguments_plain rfl rfl
  have hend : pass.Rewrites count ([Byte.newline] ++ before) ([Byte.newline] ++ after) :=
    .kept_append (noCallBegins_newline (not_mem_callNames rfl pass.name hmem) before) hrest
  rw [hcall]
  exact .kept_append (line.noCallBegins_indent hmem _) (.call hstop hend)

/-- A pass replaces the call of a line that calls its name, and keeps every other line. -/
theorem PlainLine.rewrites (line : PlainLine) {pass : Pass} (hname : pass.name ∈ callNames)
    (replaced : List Bytes) {count : Nat} {before after : Bytes}
    (hrest : pass.Rewrites count before after) :
    pass.Rewrites
      (count + if line.name? = some pass.name ∧ pass.name ∉ replaced then 1 else 0)
      (line.text replaced ++ ([Byte.newline] ++ before))
      (line.text (pass.name :: replaced) ++ ([Byte.newline] ++ after)) := by
  by_cases hcall : line.name? = some pass.name ∧ pass.name ∉ replaced
  · cases line with
    | code line => cases hcall.1
    | call line =>
      have hcalled : line.name = pass.name := Option.some.inj hcall.1
      have hopen : line.name ∉ replaced := hcalled ▸ hcall.2
      have hclosed : line.name ∈ pass.name :: replaced := hcalled ▸ List.mem_cons_self
      rw [if_pos hcall, PlainLine.text, PlainLine.text, if_neg hopen, if_pos hclosed,
        List.append_assoc, List.append_assoc]
      exact line.rewrites hcalled hrest
  · have hreplaced : line.name? = some pass.name → pass.name ∈ replaced :=
      fun hcalled => not_not.mp fun hopen => hcall ⟨hcalled, hopen⟩
    have hkept := noCallBegins_line (line.not_infix_text hname hreplaced)
      (not_mem_callNames rfl pass.name hname) before
    rw [if_neg hcall, Nat.add_zero, line.text_cons hreplaced, ← List.append_assoc,
      ← List.append_assoc]
    exact .kept_append hkept hrest

/-- A pass replaces the calls of its name. -/
theorem rewrites_textOfLines {pass : Pass} (hname : pass.name ∈ callNames)
    (replaced : List Bytes) (lines : List PlainLine) :
    pass.Rewrites
      (lines.countP fun line => line.name? = some pass.name ∧ pass.name ∉ replaced)
      (textOfLines replaced lines) (textOfLines (pass.name :: replaced) lines) := by
  induction lines with
  | nil => exact .nil
  | cons line lines ih =>
    rw [List.countP_cons, textOfLines_cons, textOfLines_cons]
    simpa only [decide_eq_true_eq] using line.rewrites hname replaced ih

/-- The lines whose call is replaced by passes for these names, where the calls of others have been
replaced before. -/
def PlainLine.calls (names replaced : List Bytes) (line : PlainLine) : Bool :=
  line.name?.any fun name => name ∈ names ∧ name ∉ replaced

/-- The first of several passes for a name replaces all of its calls. -/
theorem countP_calls_cons (name : Bytes) (names replaced : List Bytes) (lines : List PlainLine) :
    (lines.countP fun line => line.name? = some name ∧ name ∉ replaced) +
        lines.countP (PlainLine.calls names (name :: replaced)) =
      lines.countP (PlainLine.calls (name :: names) replaced) := by
  induction lines with
  | nil => rfl
  | cons line lines ih =>
    have hline : ((if line.name? = some name ∧ name ∉ replaced then 1 else 0) +
        if line.calls names (name :: replaced) then 1 else 0) =
          if line.calls (name :: names) replaced then 1 else 0 := by
      cases hname : line.name? with
      | none => simp [PlainLine.calls, hname]
      | some other =>
        by_cases heq : other = name
        · simp [PlainLine.calls, hname, heq]
        · simp [PlainLine.calls, hname, heq]
    simp only [List.countP_cons, decide_eq_true_eq]
    omega

/-- Passes for several names replace the calls of these names. -/
theorem runPasses_textOfLines (reach : Reach) {names : List Bytes}
    (hnames : ∀ name ∈ names, name ∈ callNames) (replaced : List Bytes)
    (lines : List PlainLine) :
    runPasses (names.map (⟨·, reach⟩)) (textOfLines replaced lines) =
      ⟨textOfLines (names.reverse ++ replaced) lines,
        match reach with
        | .narrow => lines.countP (PlainLine.calls names replaced)
        | .broad => 0⟩ := by
  induction names generalizing replaced with
  | nil =>
    have hnone : lines.countP (PlainLine.calls [] replaced) = 0 := by
      simp [PlainLine.calls]
    cases reach with
    | narrow => rw [hnone]; rfl
    | broad => rfl
  | cons name names ih =>
    rw [List.forall_mem_cons] at hnames
    have hname : (⟨name, reach⟩ : Pass).name ∈ callNames := hnames.1
    have hrun := (rewrites_textOfLines hname replaced lines).run_eq
    rw [List.map_cons, runPasses_cons, hrun, ih hnames.2, List.reverse_cons, List.append_assoc,
      List.singleton_append]
    cases reach with
    | narrow => rw [← countP_calls_cons]
    | broad => rfl

/-- Where the calls of all names have been replaced, no line holds a call. -/
theorem textOfLines_of_subset {replaced : List Bytes} (h : ∀ name ∈ callNames, name ∈ replaced)
    (lines : List PlainLine) : textOfLines replaced lines = textOfLines callNames lines := by
  refine List.flatMap_congr fun line _ => ?_
  cases line with
  | code line => rfl
  | call line =>
    simp only [PlainLine.text, if_pos (h line.name line.name_mem), if_pos line.name_mem]

/-- The passes replace every call and count it. -/
theorem strip_legacy_textOfLines (lines : List PlainLine) :
    strip .legacy (textOfLines [] lines) =
      ⟨textOfLines callNames lines, lines.countP PlainLine.isCall⟩ := by
  have hall : ∀ name ∈ callNames, name ∈ callNames.reverse ++ (callNames.reverse ++ []) := by
    decide
  have hcount : lines.countP (PlainLine.calls callNames []) = lines.countP PlainLine.isCall := by
    refine List.countP_congr fun line _ => ?_
    cases line with
    | code line => rfl
    | call line => simp [PlainLine.calls, PlainLine.name?, PlainLine.isCall, line.name_mem]
  rw [strip, passes, runPasses_append, runPasses_textOfLines .narrow (fun _ hname => hname),
    runPasses_textOfLines .broad (fun _ hname => hname), textOfLines_of_subset hall]
  simp only [hcount, Nat.add_zero]

/-! ### The scan -/

/-- A stretch in which nothing begins and which ends where a statement can begin is kept. -/
theorem strip_scan_callless {kept rest : Bytes}
    (hcode : ∀ b ∈ kept, Byte.isQuote b = false ∧ b ≠ Byte.slash)
    (hcall : ∀ name ∈ callNames, NoCallBegins name kept rest)
    (hstart : beginsAfter true kept = true) (hword : wordAfter false kept = false) :
    strip .scan (kept ++ rest) = ⟨kept ++ (strip .scan rest).text, (strip .scan rest).removed⟩ := by
  have hend : kept.getLast? ≠ some Byte.letterR := by
    intro hlast
    obtain ⟨front, rfl⟩ := List.getLast?_eq_some_iff.mp hlast
    rw [wordAfter_append] at hword
    cases hword
  refine strip_scan_kept ?_
  rw [statementsFrom_kept hcode hend hcall, hstart, hword, Nat.zero_add]

/-- A newline is kept. -/
theorem strip_scan_newline (rest : Bytes) :
    strip .scan ([Byte.newline] ++ rest) =
      ⟨[Byte.newline] ++ (strip .scan rest).text, (strip .scan rest).removed⟩ := by
  refine strip_scan_callless (List.forall_mem_singleton.mpr (by decide)) (fun name hname => ?_) rfl
    rfl
  exact noCallBegins_newline (not_mem_callNames rfl name hname) rest

/-- A code line is kept. -/
theorem CodeLine.strip_scan (line : CodeLine) (rest : Bytes) :
    strip .scan (line.text ++ ([Byte.newline] ++ rest)) =
      ⟨line.text ++ ([Byte.newline] ++ (strip .scan rest).text), (strip .scan rest).removed⟩ := by
  have hcode : ∀ b ∈ line.text ++ [Byte.newline], Byte.isQuote b = false ∧ b ≠ Byte.slash := by
    intro b hb
    rcases List.mem_append.mp hb with htext | hnewline
    · exact ⟨line.quote_not_mem b htext, fun heq => line.slash_not_mem (heq ▸ htext)⟩
    · cases List.mem_singleton.mp hnewline
      decide
  have hstart : beginsAfter true (line.text ++ [Byte.newline]) = true := by
    have hnewline : [Byte.newline].filter (!Byte.isBlank ·) = [] := rfl
    rw [beginsAfter_eq, List.filter_append, hnewline, List.append_nil]
    cases hlast : (line.text.filter (!Byte.isBlank ·)).getLast? with
    | none => rfl
    | some b => exact line.last_boundary b hlast
  have hword : wordAfter false (line.text ++ [Byte.newline]) = false := wordAfter_append ..
  have hkept := strip_scan_callless hcode
    (fun name hname => noCallBegins_line (line.no_call name hname)
      (not_mem_callNames rfl name hname) rest) hstart hword
  simpa only [List.append_assoc] using hkept

/-- The call of a line is a statement. -/
theorem CallLine.candidate_call (line : CallLine) (rest : Bytes) :
    candidate (line.call ++ rest) = .statement line.call.length := by
  have hcloser : ∀ q ∈ (Byte.closeParen :: terminator :: rest).head?, Byte.isQuote q = false := by
    rintro q ⟨⟩
    rfl
  have hpassed := line.arguments_plain.passes line.arguments_constant false hcloser
  have hclose := hpassed.closing?_arguments
  have hcall : line.call ++ rest = line.name ++
      Byte.openParen :: ((line.arguments ++ [Byte.closeParen]) ++ ([] ++ terminator :: rest)) := by
    simp [CallLine.call]
  rw [hcall, candidate_of_closing? line.name_mem (by simpa using hclose) (List.forall_mem_nil _)]
  simp [CallLine.call, Nat.add_assoc, Nat.add_comm 1]

/-- The indentation of a call line is kept. -/
theorem CallLine.strip_scan_indent (line : CallLine) (rest : Bytes) :
    strip .scan (line.indent ++ (line.call ++ rest)) =
      ⟨line.indent ++ (strip .scan (line.call ++ rest)).text,
        (strip .scan (line.call ++ rest)).removed⟩ := by
  have hblank : ∀ b ∈ line.indent, Byte.isBlank b = true := fun b => line.isBlank_of_mem_indent
  have hcode : ∀ b ∈ line.indent, Byte.isQuote b = false ∧ b ≠ Byte.slash := by
    intro b hb
    rcases line.indent_blank b hb with rfl | rfl <;> decide
  exact strip_scan_callless hcode (fun name hname => line.noCallBegins_indent hname _)
    (beginsAfter_of_isBlank hblank true) (wordAfter_of_isBlank hblank)

/-- The call of a line is replaced and counted. -/
theorem CallLine.strip_scan (line : CallLine) (rest : Bytes) :
    strip .scan (line.indent ++ (line.call ++ ([Byte.newline] ++ rest))) =
      ⟨line.indent ++ (marker ++ ([Byte.newline] ++ (strip .scan rest).text)),
        (strip .scan rest).removed + 1⟩ := by
  have hnonempty : line.call ≠ [] := by
    simp [CallLine.call]
  have htrivia : triviaLength? false (line.call ++ ([Byte.newline] ++ rest)) = none := by
    rw [CallLine.call, List.append_assoc]
    exact triviaLength?_callName line.name_mem false _
  have hword : wordAfter false line.call = false := by
    simp only [CallLine.call, wordAfter_append, wordAfter_cons]
    rfl
  have hfound := statementsFrom_statement (line.candidate_call ([Byte.newline] ++ rest)) htrivia
    hnonempty 0
  rw [hword, Nat.zero_add] at hfound
  rw [line.strip_scan_indent, (strip_scan_statement hfound).2, strip_scan_newline]

/-- The scan replaces every call and counts it. -/
theorem strip_scan_textOfLines (lines : List PlainLine) :
    strip .scan (textOfLines [] lines) =
      ⟨textOfLines callNames lines, lines.countP PlainLine.isCall⟩ := by
  induction lines with
  | nil => rfl
  | cons line lines ih =>
    cases line with
    | code line =>
      simp only [textOfLines_cons, PlainLine.text, line.strip_scan, ih, List.countP_cons,
        PlainLine.isCall, Bool.false_eq_true, ↓reduceIte, Nat.add_zero]
    | call line =>
      simp only [textOfLines_cons, PlainLine.text, List.not_mem_nil, line.name_mem, ↓reduceIte,
        List.append_assoc, line.strip_scan, ih, List.countP_cons, PlainLine.isCall]

/-- On plain sources the strategies agree: both give the text in which the marker takes the place of
every call, and both report as many statements as there are lines with a call. -/
theorem strip_textOfLines (lines : List PlainLine) :
    strip .scan (textOfLines [] lines) = strip .legacy (textOfLines [] lines) ∧
      ∀ strategy, strip strategy (textOfLines [] lines) =
        ⟨textOfLines callNames lines, lines.countP PlainLine.isCall⟩ := by
  have hscan := strip_scan_textOfLines lines
  have hlegacy := strip_legacy_textOfLines lines
  refine ⟨hscan.trans hlegacy.symm, fun strategy => ?_⟩
  cases strategy with
  | scan => exact hscan
  | legacy => exact hlegacy

/-- A word that ends with an `r` before a literal, and a brace without its partner. -/
def bracedCall : CallLine where
  indent := ascii "\t"
  name := ascii "debugPrint"
  arguments := ascii "xr'a $b' \x7d"
  indent_blank := fun _ hb => .inr (List.mem_singleton.mp hb)
  name_mem := by decide
  arguments_plain := by
    have hbody : ∀ b ∈ ascii "a $b", Byte.isInert b = true := List.all_eq_true.mp rfl
    exact .byte rfl (.byte rfl (.literal rfl (by decide) hbody (.byte rfl (.byte rfl .nil))))
  arguments_constant := fun hoccurs =>
    absurd (hoccurs.mem (List.mem_cons_of_mem _ List.mem_cons_self)) (by decide)

/-- A line that opens a block. -/
def blockLine : CodeLine where
  text := ascii "if (a) \x7b "
  quote_not_mem := by
    have hnone : (ascii "if (a) \x7b ").any Byte.isQuote = false := rfl
    exact fun b hb => Bool.eq_false_iff.mpr (List.any_eq_false.mp hnone b hb)
  slash_not_mem := by decide
  newline_not_mem := by decide
  no_call := by
    intro name hname hoccurs
    have hletter : ∀ name ∈ callNames, 0x6E ∈ name := by decide
    have hmem := hoccurs.mem (List.mem_append_left _ (hletter name hname))
    exact absurd hmem (by decide)
  last_boundary := by
    rintro b ⟨⟩
    rfl

/-- Calls before and behind a block line are replaced by either strategy. -/
theorem strip_textOfLines_block :
    let text := ascii "\tdebugPrint(xr'a $b' \x7d);\nif (a) \x7b \n\tdebugPrint(xr'a $b' \x7d);\n"
    let stripped := ascii "\t// Debug logging removed\nif (a) \x7b \n\t// Debug logging removed\n"
    strip .scan text = ⟨stripped, 2⟩ ∧ strip .legacy text = ⟨stripped, 2⟩ := by
  intro text stripped
  have htext : textOfLines [] [.call bracedCall, .code blockLine, .call bracedCall] = text := rfl
  have hstripped : textOfLines callNames
      [.call bracedCall, .code blockLine, .call bracedCall] = stripped := rfl
  have hstrip := (strip_textOfLines [.call bracedCall, .code blockLine, .call bracedCall]).2
  rw [htext, hstripped] at hstrip
  exact ⟨hstrip .scan, hstrip .legacy⟩

end DebugSweep.Strip
