import DebugSweep.Proofs.Toml.Members
import DebugSweep.Proofs.Toml.Strings

/-!
# Documents of strings

A document in which every line sets a key to a string is read as the table of these keys and
strings, in their order, if no key is set twice, and not at all otherwise (`document?_of_entries`).
Behind such lines no line can set one of their keys again, or open a table of its name, and whatever
follows it, the key of that line is in the table (`document?_of_stray`).
-/

namespace DebugSweep.Toml

/-- The ways to end a line. -/
def lineEnds : List (List Char) := [['\n'], ['\r', '\n']]

/-- The ways to write a line that sets a key to a string. -/
def WritesEntry (entry : List Char × List Char) (line : List Char) : Prop :=
  ∃ key value, WritesKey entry.1 key ∧ WritesString entry.2 value ∧
    line = key ++ ([' ', '=', ' '] ++ value)

/-- The ways to write lines that each set a key to a string. -/
inductive WritesEntries : List (List Char × List Char) → List Char → Prop where
  | nil : WritesEntries [] []
  | cons {entry : List Char × List Char} {entries : List (List Char × List Char)}
    {line ending text : List Char} (hentry : WritesEntry entry line) (hending : ending ∈ lineEnds)
    (hentries : WritesEntries entries text) :
    WritesEntries (entry :: entries) (line ++ (ending ++ text))

/-- The ways to write a document of such lines, the last of which need not be ended. -/
inductive WritesDocument : List (List Char × List Char) → List Char → Prop where
  | ended {entries : List (List Char × List Char)} {text : List Char}
    (h : WritesEntries entries text) : WritesDocument entries text
  | unended {entries : List (List Char × List Char)} {last : List Char × List Char}
    {lines line : List Char} (h : WritesEntries entries lines) (hlast : WritesEntry last line) :
    WritesDocument (entries ++ [last]) (lines ++ line)

/-- The texts that begin with a name, as a line does that sets a key, or with brackets before a
name, as one does that opens a table. What follows the name, be it on its line or on later ones, does
not matter. -/
inductive BeginsName (name : List Char) : List Char → Prop where
  | name {key rest : List Char} {separator : Char} (hkey : WritesKey name key)
    (hseparator : separator ∈ separators) : BeginsName name (key ++ separator :: rest)
  | bracket {text : List Char} (htext : BeginsName name text) : BeginsName name ('[' :: text)

/-- The table of these keys and strings. -/
def membersOf (entries : List (List Char × List Char)) : Members :=
  entries.map fun entry => (entry.1, .text entry.2)

section Table

variable {key : List Char}

theorem keys_membersOf (entries : List (List Char × List Char)) :
    (membersOf entries).keys = entries.map Prod.fst := by
  rw [membersOf, Members.keys, List.map_map]
  rfl

/-- What is found in such a table is a string. -/
theorem exists_lookup_membersOf {entries : List (List Char × List Char)}
    (h : key ∈ entries.map Prod.fst) :
    ∃ value, (membersOf entries).lookup key = some (.text value) := by
  induction entries with
  | nil => cases h
  | cons entry entries ih =>
    rw [membersOf, List.map_cons, List.lookup_cons]
    by_cases hkey : key = entry.1
    · exact ⟨entry.2, by rw [hkey, beq_self_eq_true]⟩
    · rw [List.map_cons, List.mem_cons] at h
      obtain ⟨value, hvalue⟩ := ih (h.resolve_left hkey)
      exact ⟨value, by rw [beq_eq_false_iff_ne.mpr hkey]; exact hvalue⟩

end Table

section Splitting

variable {tokens piece : List Token} {pieces : List (List Token)}

/-- The tokens that a line is made of, if it opens nothing: no line end, bracket or brace. -/
def IsFlat (token : Token) : Prop :=
  token ≠ .newline ∧ token ≠ .openBracket ∧ token ≠ .openBrace ∧ token ≠ .closeBracket ∧
    token ≠ .closeBrace

/-- A token inside a line belongs to it. -/
theorem splitOutside_cons {token : Token} {depth : Nat} (h : IsFlat token)
    (hsplit : splitOutside .newline depth tokens = piece :: pieces) :
    splitOutside .newline depth (token :: tokens) = (token :: piece) :: pieces := by
  obtain ⟨hnewline, hopen, hopen', hclose, hclose'⟩ := h
  rw [splitOutside, if_neg fun h => hnewline h.1]
  simp only [hopen, hopen', hclose, hclose', or_self, if_false, hsplit]

/-- Behind a bracket that opens, the line goes on. -/
theorem splitOutside_openBracket {depth : Nat}
    (hsplit : splitOutside .newline (depth + 1) tokens = piece :: pieces) :
    splitOutside .newline depth (.openBracket :: tokens) = (.openBracket :: piece) :: pieces := by
  rw [splitOutside, if_neg (by simp)]
  simp only [true_or, if_true, hsplit]

/-- There is always a piece, be it empty. -/
theorem exists_splitOutside (separator : Token) (depth : Nat) (tokens : List Token) :
    ∃ piece pieces, splitOutside separator depth tokens = piece :: pieces := by
  cases tokens with
  | nil => exact ⟨[], [], rfl⟩
  | cons token tokens =>
    rw [splitOutside]
    split
    · exact ⟨_, _, rfl⟩
    · simp only
      split <;> exact ⟨_, _, rfl⟩

end Splitting

/-- What a text adds to what has been built, read from the beginning of a line. -/
def Building.read? (building : Building) (text : List Char) : Option Building := do
  building.addLines? (splitOutside .newline 0 (← tokensFrom? 0 .plain text))

section Reading

variable {members : Members} {text rest : List Char}

theorem reads_blank : Reads .plain [' '] rest [] .plain := by
  have hstep : Reading.plain.step? ' ' ([] ++ rest) = some ⟨none, .plain, 1⟩ := rfl
  exact Reads.step hstep

theorem reads_equals : Reads .plain ['='] rest [.equals] .plain := by
  have hstep : Reading.plain.step? '=' ([] ++ rest) = some ⟨some .equals, .plain, 1⟩ := rfl
  exact Reads.step hstep

theorem reads_openBracket : Reads .plain ['['] rest [.openBracket] .plain := by
  have hstep : Reading.plain.step? '[' ([] ++ rest) = some ⟨some .openBracket, .plain, 1⟩ := rfl
  exact Reads.step hstep

/-- The end of a line is read as one. -/
theorem reads_lineEnd {ending : List Char} (h : ending ∈ lineEnds) :
    Reads .plain ending rest [.newline] .plain := by
  simp only [lineEnds, List.mem_cons, List.not_mem_nil, or_false] at h
  rcases h with rfl | rfl
  · have hstep : Reading.plain.step? '\n' ([] ++ rest) = some ⟨some .newline, .plain, 1⟩ := rfl
    exact Reads.step hstep
  · have hstep : Reading.plain.step? '\r' (['\n'] ++ rest) = some ⟨some .newline, .plain, 2⟩ := rfl
    exact Reads.step hstep

/-- A line that sets a key to a string is read as one. -/
theorem WritesEntry.exists_reads {entry : List Char × List Char} {line : List Char}
    (h : WritesEntry entry line) : ∃ token, name? token = some entry.1 ∧
      ∀ rest : List Char, rest.head? ≠ some '"' →
        Reads .plain line rest [token, .equals, .quoted entry.2 false] .plain := by
  obtain ⟨key, value, hkey, hvalue, rfl⟩ := h
  obtain ⟨token, hname, hread⟩ := hkey.exists_reads
  refine ⟨token, hname, fun rest hrest => ?_⟩
  have hsign : Reads .plain [' ', '=', ' '] (value ++ rest) [.equals] .plain :=
    reads_blank.append (reads_equals.append reads_blank)
  exact (hread ' ' (by decide) _).append (hsign.append (hvalue.reads hrest))

/-- A token that names something belongs to its line. -/
theorem isFlat_of_name? {token : Token} {name : List Char} (hname : name? token = some name) :
    IsFlat token :=
  ⟨ne_of_name? hname rfl, ne_of_name? hname rfl, ne_of_name? hname rfl, ne_of_name? hname rfl,
    ne_of_name? hname rfl⟩

/-- The tokens of a line that sets a key to a string stay together. -/
theorem splitOutside_entry {token : Token} {name value : List Char}
    (hname : name? token = some name) {tokens piece : List Token} {pieces : List (List Token)}
    (hsplit : splitOutside .newline 0 tokens = piece :: pieces) :
    splitOutside .newline 0 ([token, .equals, .quoted value false] ++ tokens) =
      ([token, .equals, .quoted value false] ++ piece) :: pieces := by
  have hequals : IsFlat .equals := by simp [IsFlat]
  have hvalue : IsFlat (.quoted value false) := by simp [IsFlat]
  exact splitOutside_cons (isFlat_of_name? hname)
    (splitOutside_cons hequals (splitOutside_cons hvalue hsplit))

/-- A line that sets a key to a string adds it to the table, unless the key is there. -/
theorem addLine?_entry {token : Token} {name value : List Char} (hname : name? token = some name) :
    Building.addLine? ⟨members, []⟩ [token, .equals, .quoted value false] =
      if name ∈ members.keys then none else some ⟨members ++ [(name, .text value)], []⟩ := by
  have hequals : (token != .equals) = true := bne_iff_ne.mpr (ne_of_name? hname rfl)
  have hkey : [token, .equals, .quoted value false].takeWhile (· != .equals) = [token] := by
    rw [List.takeWhile_cons, if_pos hequals]
    rfl
  have hvalue : [token, .equals, .quoted value false].dropWhile (· != .equals) =
      [.equals, .quoted value false] := by
    rw [List.dropWhile_cons, if_pos hequals]
    rfl
  have hline : addMember? (value? nestingLimit) members [token, .equals, .quoted value false] =
      members.set? (.text value) [name] := by
    rw [addMember?, hkey, hvalue, key?, hname]
    rfl
  rw [addLine?_of_name hname, hline, set?_singleton]
  split_ifs <;> rfl

/-- An ended line that sets a key to a string adds it to the table, unless the key is there. -/
theorem WritesEntry.read?_append {entry : List Char × List Char} {line ending : List Char}
    (h : WritesEntry entry line) (hending : ending ∈ lineEnds) :
    Building.read? ⟨members, []⟩ (line ++ (ending ++ text)) =
      if entry.1 ∈ members.keys then none
      else Building.read? ⟨members ++ [(entry.1, .text entry.2)], []⟩ text := by
  obtain ⟨token, hname, hread⟩ := h.exists_reads
  have hquote : (ending ++ text).head? ≠ some '"' := by
    simp only [lineEnds, List.mem_cons, List.not_mem_nil, or_false] at hending
    rcases hending with rfl | rfl <;> simp
  have hstretch := (hread _ hquote).append (reads_lineEnd hending)
  rw [Building.read?, Building.read?, ← List.append_assoc, hstretch]
  cases tokensFrom? 0 .plain text with
  | none => simp
  | some tokens =>
    have hend : splitOutside .newline 0 ([.newline] ++ tokens) =
        [] :: splitOutside .newline 0 tokens := rfl
    simp only [Option.map_some, Option.bind_eq_bind, Option.bind_some, List.append_assoc,
      splitOutside_entry hname hend, Building.addLines?, List.append_nil, addLine?_entry hname]
    split_ifs <;> rfl

/-- So does a line at the end of a text. -/
theorem WritesEntry.read?_eq {entry : List Char × List Char} {line : List Char}
    (h : WritesEntry entry line) :
    Building.read? ⟨members, []⟩ line =
      if entry.1 ∈ members.keys then none
      else some ⟨members ++ [(entry.1, .text entry.2)], []⟩ := by
  obtain ⟨token, hname, hread⟩ := h.exists_reads
  have hstretch := hread [] (by simp)
  have hsplit : splitOutside .newline 0 [token, .equals, .quoted entry.2 false] =
      [[token, .equals, .quoted entry.2 false]] := splitOutside_entry hname rfl
  rw [Reads, List.append_nil] at hstretch
  rw [Building.read?, hstretch]
  simp only [tokensFrom?, Option.map_some, Option.bind_eq_bind, Option.bind_some, List.append_nil,
    hsplit, Building.addLines?, addLine?_entry hname]
  split_ifs <;> rfl

/-- Ended lines add their keys and strings to the table if no key is set twice. -/
theorem WritesEntries.read?_append {entries : List (List Char × List Char)} {lines : List Char}
    (h : WritesEntries entries lines) (hmembers : members.keys.Nodup) :
    Building.read? ⟨members, []⟩ (lines ++ text) =
      if (members ++ membersOf entries).keys.Nodup then
        Building.read? ⟨members ++ membersOf entries, []⟩ text
      else none := by
  induction h generalizing members with
  | nil =>
    have hnil : members ++ membersOf [] = members := List.append_nil members
    rw [hnil, if_pos hmembers, List.nil_append]
  | @cons entry entries line ending lines hentry hending hentries ih =>
    have hcons : members ++ membersOf (entry :: entries) =
        (members ++ [(entry.1, .text entry.2)]) ++ membersOf entries :=
      List.append_cons members _ (membersOf entries)
    rw [List.append_assoc, List.append_assoc, hentry.read?_append hending, hcons]
    by_cases hkey : entry.1 ∈ members.keys
    · have hagain :
          ¬(members ++ [(entry.1, Item.text entry.2)] ++ membersOf entries).keys.Nodup := by
        intro h
        rw [Members.keys, List.map_append] at h
        exact (nodup_keys_append.mp h.of_append_left).1 hkey
      rw [if_pos hkey, if_neg hagain]
    · have hnext : (members ++ [(entry.1, Item.text entry.2)]).keys.Nodup :=
        nodup_keys_append.mpr ⟨hkey, hmembers⟩
      rw [if_neg hkey, ih hnext]

/-- The first line of a text that begins with a name does, in however many brackets it stands. -/
theorem BeginsName.exists_line {name : List Char} (h : BeginsName name text) (depth : Nat)
    {tokens : List Token} (htokens : tokensFrom? 0 .plain text = some tokens) :
    ∃ line lines, splitOutside .newline depth tokens = line :: lines ∧ BeginsWith name line := by
  induction h generalizing depth tokens with
  | @name key rest separator hkey hseparator =>
    obtain ⟨token, hname, hread⟩ := hkey.exists_reads
    rw [hread separator hseparator rest] at htokens
    obtain ⟨more, -, rfl⟩ := Option.map_eq_some_iff.mp htokens
    obtain ⟨piece, pieces, hpieces⟩ := exists_splitOutside .newline depth more
    exact ⟨_, _, splitOutside_cons (isFlat_of_name? hname) hpieces, .name hname⟩
  | @bracket text htext ih =>
    have hread : tokensFrom? 0 .plain ('[' :: text) = _ := reads_openBracket
    rw [hread] at htokens
    obtain ⟨more, hmore, rfl⟩ := Option.map_eq_some_iff.mp htokens
    obtain ⟨line, lines, hlines, hline⟩ := ih (depth + 1) hmore
    exact ⟨_, _, splitOutside_openBracket hlines, .bracket hline⟩

/-- A line that begins with a name adds it, and what it adds stays. -/
theorem BeginsName.admits_of_read? {name : List Char} (h : BeginsName name text) {after : Building}
    (hread : Building.read? ⟨members, []⟩ text = some after) :
    members.Admits name after.members := by
  obtain ⟨tokens, htokens, hread⟩ := Option.bind_eq_some_iff.mp hread
  obtain ⟨line, lines, hsplit, hline⟩ := h.exists_line 0 htokens
  rw [hsplit] at hread
  obtain ⟨next, hnext, hread⟩ := Option.bind_eq_some_iff.mp hread
  have hadmits := hline.admits hnext
  have hkept := keys_of_addLines? hread
  exact ⟨hadmits.free, hkept hadmits.added, List.Subset.trans hadmits.kept hkept⟩

end Reading

section Documents

variable {entries : List (List Char × List Char)} {text lines rest : List Char}

/-- A document is read line by line, unless it begins with a byte order mark. -/
theorem document?_eq (h : text.head? ≠ some '\uFEFF') :
    document? text = (Building.read? ⟨[], []⟩ text).map Building.members := by
  have htokens : tokens? text = tokensFrom? 0 .plain text := by
    rw [tokens?.eq_def]
    split
    · exact absurd rfl h
    · rfl
  rw [document?, htokens, Building.read?]
  cases tokensFrom? 0 .plain text with
  | none => rfl
  | some tokens =>
    simp only [Option.bind_eq_bind, Option.bind_some]
    cases Building.addLines? ⟨[], []⟩ (splitOutside .newline 0 tokens) <;> rfl

/-- No key begins with a byte order mark. -/
theorem WritesKey.exists_cons {name key : List Char} (h : WritesKey name key) :
    ∃ first more, key = first :: more ∧ first ≠ '\uFEFF' := by
  cases h with
  | bare hne hbare =>
    obtain ⟨first, more, rfl⟩ := List.exists_cons_of_ne_nil hne
    exact ⟨first, more, rfl, ne_of_isBare (hbare first List.mem_cons_self) (by decide)⟩
  | basic hstring =>
    obtain ⟨body, -, rfl⟩ := hstring
    exact ⟨'"', _, rfl, by decide⟩
  | literal htext => exact ⟨'\'', _, rfl, by decide⟩

/-- No line of an entry begins with a byte order mark. -/
theorem WritesEntry.head?_ne {entry : List Char × List Char} {line : List Char}
    (h : WritesEntry entry line) : (line ++ rest).head? ≠ some '\uFEFF' := by
  obtain ⟨key, value, hkey, -, rfl⟩ := h
  obtain ⟨first, more, rfl, hfirst⟩ := hkey.exists_cons
  exact fun h => hfirst (Option.some.inj h)

/-- Entries do not begin with a byte order mark. -/
theorem WritesEntries.head?_ne (h : WritesEntries entries lines)
    (hrest : rest.head? ≠ some '\uFEFF') : (lines ++ rest).head? ≠ some '\uFEFF' := by
  cases h with
  | nil => exact hrest
  | cons hentry hending hentries =>
    rw [List.append_assoc]
    exact hentry.head?_ne

/-- What stands behind entries is read after them. -/
theorem WritesEntries.document?_append (h : WritesEntries entries lines)
    (hrest : rest.head? ≠ some '\uFEFF') :
    document? (lines ++ rest) =
      if (entries.map Prod.fst).Nodup then
        (Building.read? ⟨membersOf entries, []⟩ rest).map Building.members
      else none := by
  have hnone : Members.keys [] |>.Nodup := List.nodup_nil
  have hnil : [] ++ membersOf entries = membersOf entries := List.nil_append _
  rw [document?_eq (h.head?_ne hrest), h.read?_append hnone, hnil, keys_membersOf]
  split_ifs <;> rfl

/-- A document of lines that each set a key to a string is read as the table of these, if no key is
set twice. -/
theorem document?_of_entries (h : WritesDocument entries text) :
    document? text = if (entries.map Prod.fst).Nodup then some (membersOf entries) else none := by
  cases h with
  | ended hlines =>
    have hread := hlines.document?_append (show [].head? ≠ some '\uFEFF' by simp)
    rw [List.append_nil] at hread
    exact hread
  | @unended entries last lines line hlines hlast =>
    have hhead : line.head? ≠ some '\uFEFF' := List.append_nil line ▸ hlast.head?_ne
    have hmembers : membersOf (entries ++ [last]) = membersOf entries ++ [(last.1, .text last.2)] :=
      List.map_append
    rw [hlines.document?_append hhead, hlast.read?_eq, ← keys_membersOf (entries ++ [last]),
      hmembers, ← keys_membersOf entries]
    simp only [nodup_keys_append]
    by_cases hkey : last.1 ∈ (membersOf entries).keys
    · simp only [hkey, not_true, false_and, if_true, if_false, Option.map_none, ite_self]
    · simp only [hkey, not_false_eq_true, true_and, if_false, Option.map_some]

/-- No text that begins with a name begins with a byte order mark. -/
theorem BeginsName.head?_ne {name : List Char} (h : BeginsName name text) :
    text.head? ≠ some '\uFEFF' := by
  cases h with
  | name hkey hseparator =>
    obtain ⟨first, more, rfl, hfirst⟩ := hkey.exists_cons
    exact fun h => hfirst (Option.some.inj h)
  | bracket htext => exact fun h => absurd (Option.some.inj h) (by decide)

/-- Behind lines that each set a key to a string no line adds one of these keys again, and the name
that a line begins with is in the table that is read, whatever follows. -/
theorem document?_of_stray (h : WritesEntries entries lines) {name : List Char}
    (hstray : BeginsName name rest) {members : Members}
    (hread : document? (lines ++ rest) = some members) :
    name ∉ entries.map Prod.fst ∧ name ∈ members.keys := by
  rw [h.document?_append hstray.head?_ne] at hread
  split_ifs at hread
  obtain ⟨after, hafter, rfl⟩ := Option.map_eq_some_iff.mp hread
  have hadmits := hstray.admits_of_read? hafter
  refine ⟨fun hthere => ?_, hadmits.added⟩
  obtain ⟨value, hvalue⟩ := exists_lookup_membersOf hthere
  exact hadmits.free value hvalue

end Documents

end DebugSweep.Toml
