import DebugSweep.Config
import DebugSweep.Proofs.Sweep.Cleaning
import DebugSweep.Proofs.Text.Decoding
import DebugSweep.Proofs.Toml.Entries
import DebugSweep.Proofs.Tree.Listing

/-!
# Loading a configuration that was written

A configuration is written as one line for each setting, in any order and with any of the settings
left out. Loading it gives the values that were written and the standard ones for what was left out
(`load_written`), however the strings are quoted and escaped. If a setting is written twice, or the
file names anything that is no setting, the whole file is refused.
-/

namespace DebugSweep.Config

open Strip (Strategy)
open Toml (Item Members WritesDocument WritesEntries BeginsName membersOf)

/-- A setting with its value. -/
inductive Setting where
  | root (value : String)
  | exclude (value : String)
  | strategy (value : Strategy)
  deriving DecidableEq, Repr

namespace Setting

/-- The names of all settings. -/
def names : List String := ["root", "exclude", "strategy"]

/-- The name of the setting. -/
def key : Setting → String
  | root _ => "root"
  | exclude _ => "exclude"
  | strategy _ => "strategy"

theorem key_mem (setting : Setting) : setting.key ∈ names := by
  cases setting <;> simp [key, names]

/-- The string that the value is written as. -/
def value : Setting → String
  | root value => value
  | exclude value => value
  | strategy value => value.name

/-- The key and the string of the line that the setting is written in. -/
def entry (setting : Setting) : List Char × List Char :=
  (setting.key.toList, setting.value.toList)

/-- The root that is set. -/
def root? : Setting → Option Path
  | root value => some (.ofString value)
  | _ => none

/-- The part of a path that is set to mark the logging utility. -/
def exclude? : Setting → Option String
  | exclude value => some value
  | _ => none

/-- The strategy that is set. -/
def strategy? : Setting → Option Strategy
  | strategy value => some value
  | _ => none

/-- The configuration with the setting in it. -/
def put (config : Config) : Setting → Config
  | root value => { config with root := .ofString value }
  | exclude value => { config with exclude := value }
  | strategy value => { config with strategy := value }

/-- The line that the setting is usually written in. -/
def line (setting : Setting) : List Char :=
  setting.key.toList ++ ([' ', '=', ' '] ++ Toml.writeString setting.value.toList)

end Setting

/-- The values that are set, and the standard ones where nothing is. -/
def ofSettings (settings : List Setting) : Config where
  root := (settings.findSome? Setting.root?).getD standard.root
  exclude := (settings.findSome? Setting.exclude?).getD standard.exclude
  strategy := (settings.findSome? Setting.strategy?).getD standard.strategy

/-- The file that settings are usually written as. -/
def write : List Setting → List Char
  | [] => []
  | setting :: settings => setting.line ++ (['\n'] ++ write settings)

/-- Loading fails with the message that the configuration at the path is invalid. -/
def Refuses (session : Session) (path : Path) : Prop :=
  ∃ error, load session path = (session, .error error) ∧
    error.message = s!"invalid config {path}"

section Settings

variable {settings : List Setting}

/-- What is usually written is one of the ways to write it. -/
theorem writesEntries_write (settings : List Setting) :
    WritesEntries (settings.map Setting.entry) (write settings) := by
  induction settings with
  | nil => exact .nil
  | cons setting settings ih =>
    have hbare : ∀ name ∈ Setting.names,
        name.toList ≠ [] ∧ name.toList.all Toml.isBare = true := by decide
    obtain ⟨hne, hbare⟩ := hbare setting.key setting.key_mem
    have hkey : Toml.WritesKey setting.key.toList setting.key.toList :=
      .bare hne (List.all_eq_true.mp hbare)
    have hvalue := Toml.writesString_writeString setting.value.toList
    exact .cons ⟨_, _, hkey, hvalue, rfl⟩ (by decide) ih

theorem ofName?_name (strategy : Strategy) : Strategy.ofName? strategy.name = some strategy := by
  cases strategy <;> rfl

/-- The entry of a setting is read as the setting. -/
theorem set?_entry (config : Config) (setting : Setting) :
    config.set? setting.entry.1 (.text setting.entry.2) = some (setting.put config) := by
  cases setting with
  | root value =>
    simp only [Setting.entry, Setting.key, Setting.value, Setting.put]
    rw [set?.eq_def, if_pos rfl]
    rfl
  | exclude value =>
    simp only [Setting.entry, Setting.key, Setting.value, Setting.put]
    rw [set?.eq_def, if_neg (by decide), if_pos rfl]
    simp only [String.ofList_toList]
  | strategy value =>
    simp only [Setting.entry, Setting.key, Setting.value, Setting.put]
    rw [set?.eq_def, if_neg (by decide), if_neg (by decide), if_pos rfl]
    simp only [strategyOf?, String.ofList_toList, ofName?_name, Option.map_some]

/-- The entries of settings are read as these, one after the other. -/
theorem setAll?_entries (config : Config) (settings : List Setting) :
    config.setAll? (membersOf (settings.map Setting.entry)) =
      some (settings.foldl Setting.put config) := by
  induction settings generalizing config with
  | nil => rfl
  | cons setting settings ih =>
    rw [List.map_cons, membersOf, List.map_cons, setAll?, set?_entry]
    exact ih (setting.put config)

/-- Only a setting can be set. -/
theorem set?_of_not_mem {name : String} (hname : name ∉ Setting.names) (config : Config)
    (item : Item) : config.set? name.toList item = none := by
  have hne : ∀ setting ∈ Setting.names, name.toList ≠ setting.toList := fun setting hmem h =>
    hname (String.toList_injective h ▸ hmem)
  rw [set?.eq_def, if_neg (hne _ (by decide)), if_neg (hne _ (by decide)),
    if_neg (hne _ (by decide))]

/-- A table that names anything else is refused. -/
theorem setAll?_of_not_mem {name : String} (hname : name ∉ Setting.names) {members : Members}
    (hmem : name.toList ∈ members.keys) (config : Config) : config.setAll? members = none := by
  induction members generalizing config with
  | nil => cases hmem
  | cons member members ih =>
    rw [setAll?]
    rcases List.mem_cons.mp hmem with hhead | htail
    · rw [← hhead, set?_of_not_mem hname]
      rfl
    · cases config.set? member.1 member.2 with
      | none => rfl
      | some config => exact ih htail config

/-- A field that one setting fills has the value of that setting, whatever else is set. -/
theorem field_foldl_put {α : Type} {field : Config → α} {value? : Setting → Option α} (key : String)
    (hput : ∀ config setting, field (setting.put config) = (value? setting).getD (field config))
    (hkey : ∀ setting, value? setting = none ↔ setting.key ≠ key)
    (h : (settings.map Setting.key).Nodup) (config : Config) :
    field (settings.foldl Setting.put config) =
      (settings.findSome? value?).getD (field config) := by
  induction settings generalizing config with
  | nil => rfl
  | cons setting settings ih =>
    obtain ⟨hnew, hrest⟩ := List.nodup_cons.mp h
    rw [List.foldl_cons, ih hrest, hput, List.findSome?_cons]
    cases hvalue : value? setting with
    | none => rfl
    | some value =>
      -- no later setting has the name of this one, so none has a value for the field
      have hsame : setting.key = key := by
        by_contra hother
        rw [(hkey setting).mpr hother] at hvalue
        cases hvalue
      have hnone : settings.findSome? value? = none :=
        List.findSome?_eq_none_iff.mpr fun later hlater =>
          (hkey later).mpr fun h => hnew (List.mem_map.mpr ⟨later, hlater, h.trans hsame.symm⟩)
      rw [hnone]
      rfl

/-- Settings with different names are all in the configuration, in whatever order they come. -/
theorem foldl_put (h : (settings.map Setting.key).Nodup) :
    settings.foldl Setting.put standard = ofSettings settings := by
  have hroot : (settings.foldl Setting.put standard).root = (ofSettings settings).root :=
    field_foldl_put "root" (by rintro config (_ | _ | _) <;> rfl)
      (by rintro (_ | _ | _) <;> simp [Setting.root?, Setting.key]) h standard
  have hexclude : (settings.foldl Setting.put standard).exclude = (ofSettings settings).exclude :=
    field_foldl_put "exclude" (by rintro config (_ | _ | _) <;> rfl)
      (by rintro (_ | _ | _) <;> simp [Setting.exclude?, Setting.key]) h standard
  have hstrategy :
      (settings.foldl Setting.put standard).strategy = (ofSettings settings).strategy :=
    field_foldl_put "strategy" (by rintro config (_ | _ | _) <;> rfl)
      (by rintro (_ | _ | _) <;> simp [Setting.strategy?, Setting.key]) h standard
  rw [Config.mk.injEq]
  exact ⟨hroot, hexclude, hstrategy⟩

end Settings

section Loading

variable {session : Session} {path : Path} {settings : List Setting} {text lines rest : List Char}

/-- A file with a text that can be read is read as the text. -/
theorem load_of_read (hread : session.tree.read path = .ok (Utf8.encode text)) :
    load session path =
      (ofText? text).elim (session, .error (.invalid path)) fun config =>
        (session.note .debug .configuration s!"loaded config from {path}", .ok config) := by
  obtain ⟨address, mode, haddress, hfile, -⟩ := Tree.exists_of_read hread
  have hshape : session.tree.layout.shapeAt? address = some (.file mode) := by
    rw [Tree.shapeAt?_layout, hfile]
    rfl
  have hthere : session.tree.layout.contains path = true := by
    rw [Layout.contains, Layout.entry_eq_ok_iff.mpr ⟨haddress, hshape⟩]
    rfl
  have htext : readText session.tree path = .ok text := by
    rw [readText, hread]
    simp only [bind, Except.bind, Utf8.decode?_encode]
  rw [load, hthere, Bool.not_true, if_neg Bool.false_ne_true]
  simp only [htext]
  cases ofText? text <;> rfl

/-- A text that describes no configuration is refused. -/
theorem refuses_of_read (hread : session.tree.read path = .ok (Utf8.encode text))
    (h : ofText? text = none) : Refuses session path := by
  refine ⟨.invalid path, ?_, rfl⟩
  rw [load_of_read hread, h, Option.elim_none]

/-- The names of settings, as the keys that they are written by. -/
theorem map_fst_entry (settings : List Setting) :
    (settings.map Setting.entry).map Prod.fst = (settings.map Setting.key).map String.toList := by
  rw [List.map_map, List.map_map]
  rfl

/-- Settings are read from what they were written as, unless one is written twice. -/
theorem ofText?_of_settings (h : WritesDocument (settings.map Setting.entry) text) :
    ofText? text =
      if (settings.map Setting.key).Nodup then some (ofSettings settings) else none := by
  have hnodup : ((settings.map Setting.entry).map Prod.fst).Nodup ↔
      (settings.map Setting.key).Nodup := by
    rw [map_fst_entry]
    exact List.nodup_map_iff fun _ _ => String.toList_injective
  rw [ofText?, Toml.document?_of_entries h]
  simp only [hnodup]
  split_ifs with hdistinct
  · simp only [Option.bind_eq_bind, Option.bind_some, setAll?_entries, foldl_put hdistinct]
  · rfl

/-- No settings are read where one of them is named again, or something that is no setting. -/
theorem ofText?_of_stray (h : WritesEntries (settings.map Setting.entry) lines) {name : String}
    (hstray : BeginsName name.toList rest)
    (hname : name ∈ settings.map Setting.key ∨ name ∉ Setting.names) :
    ofText? (lines ++ rest) = none := by
  rw [ofText?]
  cases hread : Toml.document? (lines ++ rest) with
  | none => rfl
  | some members =>
    obtain ⟨hnew, hadded⟩ := Toml.document?_of_stray h hstray hread
    rw [map_fst_entry] at hnew
    rcases hname with hagain | hother
    · exact absurd (List.mem_map_of_mem hagain) hnew
    · exact setAll?_of_not_mem hother hadded standard

end Loading

/-- Loading undoes writing. From any file that holds each of some settings on a line of its own, in
any order and however it is written, exactly these settings are loaded, with the standard values for
all others, and there is such a file for any settings. Where a setting is written twice, or where
behind some of the lines one of these settings is named again or anything that is no setting, the
file is refused, whatever follows. -/
theorem load_written (session : Session) (path : Path) :
    (∀ settings : List Setting, WritesDocument (settings.map Setting.entry) (write settings)) ∧
    (∀ (settings : List Setting) (text : List Char),
      WritesDocument (settings.map Setting.entry) text →
      session.tree.read path = .ok (Utf8.encode text) →
      ((settings.map Setting.key).Nodup →
        load session path =
          (session.note .debug .configuration s!"loaded config from {path}",
            .ok (ofSettings settings))) ∧
      (¬ (settings.map Setting.key).Nodup → Refuses session path)) ∧
    (∀ (settings : List Setting) (lines rest : List Char) (name : String),
      WritesEntries (settings.map Setting.entry) lines → BeginsName name.toList rest →
      (name ∈ settings.map Setting.key ∨ name ∉ Setting.names) →
      session.tree.read path = .ok (Utf8.encode (lines ++ rest)) → Refuses session path) := by
  refine ⟨fun settings => .ended (writesEntries_write settings),
    fun settings text htext hread => ⟨fun hdistinct => ?_, fun hagain => ?_⟩,
    fun settings lines rest name hlines hstray hname hread => ?_⟩
  · rw [load_of_read hread, ofText?_of_settings htext, if_pos hdistinct, Option.elim_some]
  · refine refuses_of_read hread ?_
    rw [ofText?_of_settings htext, if_neg hagain]
  · exact refuses_of_read hread (ofText?_of_stray hlines hstray hname)

/-- A working directory that holds a configuration with this text. -/
def textTree (text : List Char) : Tree :=
  ⟨[], [([], .directory .full), ([ascii "c"], .file .full (Utf8.encode text))]⟩

theorem read_textTree (text : List Char) :
    (textTree text).read ⟨ascii "c"⟩ = .ok (Utf8.encode text) := by
  rfl

/-- A strategy and a root with a quote, a backslash, control characters and characters that are not
ASCII. -/
def awkward : List Setting := [.strategy .legacy, .root "a\"b\\c\x00\t\nü𝄞\x7f"]

/-- These settings are loaded as they were written, in the order that they were written in. Written
with another strategy, or with a table of another name, they are refused. -/
theorem load_written_awkward :
    (load (.start (textTree (write awkward))) ⟨ascii "c"⟩).2 =
        .ok ⟨.ofString "a\"b\\c\x00\t\nü𝄞\x7f", loggerName, .legacy⟩ ∧
      Refuses (.start (textTree (write (awkward ++ [.strategy .scan])))) ⟨ascii "c"⟩ ∧
      Refuses (.start (textTree (write awkward ++ "[targets]\nlog = 1".toList))) ⟨ascii "c"⟩ := by
  have hwrites (tree : Tree) (settings : List Setting) :
      WritesDocument (settings.map Setting.entry) (write settings) :=
    (load_written (.start tree) ⟨ascii "c"⟩).1 settings
  obtain ⟨-, hloads, -⟩ := load_written (.start (textTree (write awkward))) ⟨ascii "c"⟩
  obtain ⟨-, htwice, -⟩ :=
    load_written (.start (textTree (write (awkward ++ [.strategy .scan])))) ⟨ascii "c"⟩
  obtain ⟨-, -, hother⟩ :=
    load_written (.start (textTree (write awkward ++ "[targets]\nlog = 1".toList))) ⟨ascii "c"⟩
  have hname : BeginsName "targets".toList "[targets]\nlog = 1".toList := by
    have hkey : Toml.WritesKey "targets".toList "targets".toList :=
      .bare (by decide) (List.all_eq_true.mp (by decide))
    exact .bracket (.name hkey (by decide))
  refine ⟨?_, ?_, ?_⟩
  · rw [(hloads awkward _ (hwrites .empty awkward) (read_textTree _)).1 (by decide)]
    rfl
  · exact (htwice _ _ (hwrites .empty _) (read_textTree _)).2 (by decide)
  · exact hother awkward _ _ "targets" (writesEntries_write awkward) hname (by decide)
      (read_textTree _)

end DebugSweep.Config
