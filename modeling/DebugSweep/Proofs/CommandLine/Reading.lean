import DebugSweep.CommandLine.Arguments
import DebugSweep.Proofs.Text.Decoding

/-!
# What a command line is read as

A command line says that switches are on, what to exclude, where the configuration is and what the
root is, each in one of several spellings (`Spelled`) and all in any order; a root may also stand
after the end of the options (`Line`). A line that says nothing twice asks for a sweep with all that
it says and nothing else (`read_line`), and a line that says something twice is refused
(`read_line_repeated`).
-/

namespace DebugSweep.CommandLine

/-- Something that a command line can say. -/
inductive Item where
  | flag (flag : Flag)
  | exclude (text : List Char)
  | config (path : Bytes)
  | root (path : Bytes)

/-- What an item is about. -/
def Item.choice : Item → Choice
  | .flag which => .flag which
  | .exclude _ => .slot .exclude
  | .config _ => .slot .config
  | .root _ => .slot .root

/-- A word that does not look like an option. -/
def Plain (word : Bytes) : Prop := word = [Byte.hyphen] ∨ word.head? ≠ some Byte.hyphen

instance (word : Bytes) : Decidable (Plain word) := inferInstanceAs (Decidable (_ ∨ _))

/-- The ways to write an item. What is excluded may be the empty text. -/
inductive Spelled : Item → List Bytes → Prop
  | switch (flag : Flag) : Spelled (.flag flag) [ascii flag.name]
  | letter : Spelled (.flag .verbose) [ascii "-v"]
  | exclude (text : List Char) : Spelled (.exclude text) [ascii "--exclude=" ++ Utf8.encode text]
  | excludeNext {text : List Char} (hplain : Plain (Utf8.encode text)) :
      Spelled (.exclude text) [ascii "--exclude", Utf8.encode text]
  | config {path : Bytes} (h : path ≠ []) : Spelled (.config path) [ascii "--config=" ++ path]
  | configNext {path : Bytes} (h : path ≠ []) (hplain : Plain path) :
      Spelled (.config path) [ascii "--config", path]
  | root {path : Bytes} (h : path ≠ []) (hplain : Plain path) : Spelled (.root path) [path]

/-- A command line: items one after the other, and then the end of the options, after which the root
may look like an option. -/
inductive Line : List Item → List Bytes → Prop
  | nil : Line [] []
  | stop : Line [] [endOfOptions]
  | stopRoot {path : Bytes} (h : path ≠ []) : Line [.root path] [endOfOptions, path]
  | cons {item : Item} {items : List Item} {words line : List Bytes} (h : Spelled item words)
      (hrest : Line items line) : Line (item :: items) (words ++ line)

namespace Arguments

/-- Nothing is asked for. -/
def none : Arguments := ⟨.none, .none, .none, []⟩

/-- The arguments with one more item. -/
def add (arguments : Arguments) : Item → Arguments
  | .flag flag => { arguments with flags := arguments.flags ++ [flag] }
  | .exclude text => { arguments with exclude := some (String.ofList text) }
  | .config path => { arguments with config := some ⟨path⟩ }
  | .root path => { arguments with root := some ⟨path⟩ }

/-- Whether the arguments say something about a choice. -/
def Has (arguments : Arguments) : Choice → Prop
  | .flag flag => flag ∈ arguments.flags
  | .slot .exclude => arguments.exclude.isSome = true
  | .slot .config => arguments.config.isSome = true
  | .slot .root => arguments.root.isSome = true
  | .help => False
  | .version => False

theorem not_has_none (choice : Choice) : ¬none.Has choice := by
  rcases choice with which | (_ | _ | _) | _ | _ <;> simp [none, Has]

/-- An item adds what it is about. -/
theorem has_add_iff {arguments : Arguments} {item : Item} {choice : Choice} :
    (arguments.add item).Has choice ↔ arguments.Has choice ∨ choice = item.choice := by
  cases item <;> rcases choice with which | (_ | _ | _) | _ | _ <;> simp [add, Has, Item.choice]

/-- Items say nothing twice, and nothing that the arguments say. -/
def Fresh (arguments : Arguments) (items : List Item) : Prop :=
  (∀ item ∈ items, ¬arguments.Has item.choice) ∧ (items.map Item.choice).Nodup

theorem fresh_cons_iff {arguments : Arguments} {item : Item} {items : List Item} :
    arguments.Fresh (item :: items) ↔
      ¬arguments.Has item.choice ∧ (arguments.add item).Fresh items := by
  simp only [Fresh, List.forall_mem_cons, List.map_cons, List.nodup_cons, List.mem_map,
    has_add_iff, not_or, not_exists, not_and]
  constructor
  · rintro ⟨⟨hitem, hitems⟩, hnew, hnodup⟩
    exact ⟨hitem, fun other hother => ⟨hitems other hother, hnew other hother⟩, hnodup⟩
  · rintro ⟨hitem, hitems, hnodup⟩
    exact ⟨⟨hitem, fun other hother => (hitems other hother).1⟩,
      fun other hother => (hitems other hother).2, hnodup⟩

end Arguments

namespace Reading

variable {reading settled : Reading} {slot : Slot} {value : Bytes}

/-- No value is awaited: the next word that does not look like an option is a root. -/
def Ready (reading : Reading) : Prop := ∀ slot, reading.pending ≠ some (slot, none)

/-- What an item does to a reading in which nothing is pending. -/
def take (reading : Reading) : Item → Except UsageError Reading
  | .flag which => reading.turnOn which
  | .exclude text => reading.store .exclude (Utf8.encode text)
  | .config path => reading.store .config path
  | .root path =>
    if reading.rootGiven then .error (.unexpectedArgument (Utf8.lossy path))
    else { reading with rootGiven := true }.store .root path

theorem ready_of_pending (h : reading.pending = none) : reading.Ready := fun slot hslot => by
  cases h.symm.trans hslot

/-- Storing a value leaves what is pending, and whether a root has come. -/
theorem store_eq_ok (h : reading.store slot value = .ok settled) :
    settled.pending = reading.pending ∧ settled.rootGiven = reading.rootGiven := by
  cases slot with
  | root =>
    simp only [store] at h
    split_ifs at h
    cases h
    exact ⟨rfl, rfl⟩
  | exclude =>
    simp only [store] at h
    split_ifs at h
    split at h
    · cases h
    · cases h
      exact ⟨rfl, rfl⟩
  | config =>
    simp only [store] at h
    split_ifs at h
    cases h
    exact ⟨rfl, rfl⟩

/-- Once settled, nothing is pending. -/
theorem settle_eq_ok (h : reading.settle = .ok settled) :
    settled.pending = none ∧ settled.rootGiven = reading.rootGiven := by
  rw [settle] at h
  split at h
  · rename_i hpending
    cases h
    exact ⟨hpending, rfl⟩
  · cases h
  · exact store_eq_ok h

theorem settle_of_pending (h : reading.pending = none) : reading.settle = .ok reading := by
  rw [settle, h]

/-- An item that is taken leaves what is pending. -/
theorem take_eq_ok {item : Item} (h : reading.take item = .ok settled) :
    settled.pending = reading.pending := by
  cases item with
  | flag which =>
    simp only [take, turnOn] at h
    split_ifs at h
    cases h
    rfl
  | exclude text =>
    rw [take] at h
    exact (store_eq_ok h).1
  | config path =>
    rw [take] at h
    exact (store_eq_ok h).1
  | root path =>
    rw [take] at h
    split_ifs at h
    exact (store_eq_ok h).1

end Reading

section Words

variable {reading : Reading} {word value name : Bytes} {slot : Slot} {flag : Flag}

theorem Plain.ne_endOfOptions (h : Plain word) : word ≠ endOfOptions := by
  rintro rfl
  exact absurd h (by decide)

/-- The words after one that is no request are read from what it leaves. -/
theorem readFrom_cons {next : Except UsageError Reading} (hword : word ≠ endOfOptions)
    (h : readArgument reading word = next.map .more) (rest : List Bytes) :
    readFrom reading (word :: rest) = next.bind fun next => readFrom next rest := by
  rw [readFrom, if_neg hword, h]
  cases next <;> rfl

/-- A word that does not look like an option is a value or a root. -/
theorem readArgument_of_plain (h : Plain word) :
    readArgument reading word = (readValue reading word).map .more := by
  match word with
  | [] => rfl
  | [b] => rfl
  | b :: c :: word =>
    have hb : b ≠ Byte.hyphen := fun hb =>
      h.elim (fun hall => by simp at hall) fun hhead => hhead (by rw [hb]; rfl)
    rw [readArgument, if_pos hb]

/-- What is read further is what is done to the settled reading. -/
theorem settle_bind_more (change : Reading → Except UsageError Reading) :
    (do
      let settled ← reading.settle
      .ok (Verdict.more (← change settled))) = (reading.settle.bind change).map .more := by
  cases reading.settle with
  | error error => rfl
  | ok settled => cases hchange : change settled <;> simp [bind, Except.bind, hchange, Except.map]

/-- A switch is turned on. -/
theorem readArgument_flag :
    readArgument reading (ascii flag.name) =
      (reading.settle.bind fun settled => settled.turnOn flag).map .more := by
  cases flag <;> exact settle_bind_more _

/-- A letter stands for its switch. -/
theorem readArgument_letter :
    readArgument reading (ascii "-v") =
      (reading.settle.bind fun settled => settled.turnOn .verbose).map .more :=
  settle_bind_more _

/-- A value is awaited. -/
theorem settle_bind_awaits (slot : Slot) :
    (do
      let settled ← reading.settle
      .ok (Verdict.more { settled with pending := some (slot, none) })) =
      (reading.settle.bind fun settled =>
        .ok { settled with pending := some (slot, none) }).map .more :=
  settle_bind_more fun settled => .ok { settled with pending := some (slot, none) }

/-- The name of an option ends where its value is attached. -/
theorem readArgument_attached (reading : Reading) (value : Bytes) (hname : Byte.equals ∉ name)
    (hchoice : longChoice? name = some (.slot slot)) :
    readArgument reading (Byte.hyphen :: Byte.hyphen :: (name ++ Byte.equals :: value)) =
      (reading.settle.bind fun settled => settled.store slot value).map .more := by
  have hbytes : ∀ b ∈ name, (b != Byte.equals) = true := fun b hb => by
    simpa using ne_of_mem_of_not_mem hb hname
  have htake : (name ++ Byte.equals :: value).takeWhile (· != Byte.equals) = name := by
    rw [List.takeWhile_append_of_pos hbytes, List.takeWhile_cons_of_neg (by simp), List.append_nil]
  have hdrop : (name ++ Byte.equals :: value).dropWhile (· != Byte.equals) =
      Byte.equals :: value := by
    rw [List.dropWhile_append_of_pos hbytes, List.dropWhile_cons_of_neg (by simp)]
  rw [readArgument, if_neg (by simp), if_pos rfl, readLong, htake, hdrop, hchoice]
  exact settle_bind_more _

/-- The name of an option alone awaits the value, which the next word is. -/
theorem readFrom_next {option : Bytes} (hoption : option ≠ endOfOptions)
    (hreads : readArgument reading option =
      (reading.settle.bind fun settled =>
        .ok { settled with pending := some (slot, none) }).map .more)
    (hplain : Plain value) (rest : List Bytes) :
    readFrom reading (option :: value :: rest) =
      (reading.settle.bind fun settled =>
        .ok { settled with pending := some (slot, some value) }).bind fun next =>
          readFrom next rest := by
  rw [readFrom_cons hoption hreads]
  cases reading.settle with
  | error error => rfl
  | ok settled => exact readFrom_cons hplain.ne_endOfOptions (readArgument_of_plain hplain) rest

/-- Where no value is awaited, a word that does not look like an option is the root. -/
theorem readValue_of_ready (h : reading.Ready) (word : Bytes) :
    readValue reading word = readRoot reading word := by
  rw [readValue]
  split
  · rename_i slot hpending
    exact absurd hpending (h slot)
  · rfl

end Words

/-- What is accepted in two steps is accepted in each of them. -/
theorem toOption_bind {ε α β : Type} (first : Except ε α) (second : α → Except ε β) :
    (first.bind second).toOption = first.toOption.bind fun a => (second a).toOption := by
  cases first <;> rfl

/-- What a root does to a reading in which nothing is pending: it waits to be stored. -/
def awaitRoot (path : Bytes) (settled : Reading) : Except UsageError Reading :=
  if settled.rootGiven then .error (.unexpectedArgument (Utf8.lossy path))
  else .ok { settled with pending := some (.root, some path), rootGiven := true }

/-- A root is refused, or waits. -/
theorem toOption_readRoot (reading : Reading) (path : Bytes) :
    (readRoot reading path).toOption = (reading.settle.bind (awaitRoot path)).toOption := by
  rw [readRoot]
  cases hsettle : reading.settle with
  | error error => split <;> rfl
  | ok settled =>
    simp only [Except.bind, awaitRoot, (Reading.settle_eq_ok hsettle).2]
    split <;> rfl

/-- A change of a settled reading that leaves it ready for more and, once it is settled again, has
done what an item does. -/
structure Conveys (item : Item) (change : Reading → Except UsageError Reading) : Prop where
  ready {settled next : Reading} (h : settled.pending = none) (hnext : change settled = .ok next) :
    next.Ready
  settle {settled : Reading} (h : settled.pending = none) :
    ((change settled).bind Reading.settle).toOption = (settled.take item).toOption

/-- An item may take effect at once. -/
theorem conveys_take (item : Item) : Conveys item (·.take item) where
  ready hpending hnext := Reading.ready_of_pending ((Reading.take_eq_ok hnext).trans hpending)
  settle {settled} hpending := by
    cases hnext : settled.take item with
    | error error => rfl
    | ok next =>
      exact congrArg _ (Reading.settle_of_pending ((Reading.take_eq_ok hnext).trans hpending))

/-- A value may wait to be stored. -/
theorem conveys_pending {item : Item} (slot : Slot) (value : Bytes)
    (h : ∀ settled : Reading, settled.take item = settled.store slot value) :
    Conveys item fun settled => .ok { settled with pending := some (slot, some value) } where
  ready _ hnext slot' := by
    cases hnext
    rintro ⟨⟩
  settle {settled} hpending := by
    obtain ⟨arguments, pending, given⟩ := settled
    cases hpending
    rw [h]
    rfl

/-- A root waits to be stored. -/
theorem conveys_root (path : Bytes) : Conveys (.root path) (awaitRoot path) where
  ready _ hnext slot := by
    rw [awaitRoot] at hnext
    split_ifs at hnext
    cases hnext
    rintro ⟨⟩
  settle {settled} hpending := by
    obtain ⟨arguments, pending, given⟩ := settled
    cases hpending
    cases given <;> rfl

/-- However an item is written, it is read as what it does to a settled reading. -/
theorem Spelled.exists_conveys {item : Item} {words : List Bytes} (h : Spelled item words)
    {reading : Reading} (hready : reading.Ready) :
    ∃ change, Conveys item change ∧ ∀ rest, (readFrom reading (words ++ rest)).toOption =
      ((reading.settle.bind change).bind fun next => readFrom next rest).toOption := by
  cases h with
  | switch flag =>
    refine ⟨_, conveys_take _, fun rest => congrArg _ ?_⟩
    exact readFrom_cons (by cases flag <;> decide) readArgument_flag rest
  | letter =>
    exact ⟨_, conveys_take _, fun rest => congrArg _ (readFrom_cons (by decide)
      readArgument_letter rest)⟩
  | exclude text =>
    have hattached := readArgument_attached reading (Utf8.encode text)
      (by decide : Byte.equals ∉ ascii "exclude") rfl
    exact ⟨_, conveys_take _, fun rest => congrArg _
      (readFrom_cons (by simp [ascii, endOfOptions]) hattached rest)⟩
  | excludeNext hplain =>
    have hawaits : readArgument reading (ascii "--exclude") = (reading.settle.bind fun settled =>
        .ok { settled with pending := some (.exclude, none) }).map .more :=
      settle_bind_awaits .exclude
    exact ⟨_, conveys_pending .exclude _ fun settled => rfl, fun rest => congrArg _
      (readFrom_next (by decide) hawaits hplain rest)⟩
  | @config path hpath =>
    have hattached := readArgument_attached reading path
      (by decide : Byte.equals ∉ ascii "config") rfl
    exact ⟨_, conveys_take _, fun rest => congrArg _
      (readFrom_cons (by simp [ascii, endOfOptions]) hattached rest)⟩
  | configNext hpath hplain =>
    have hawaits : readArgument reading (ascii "--config") = (reading.settle.bind fun settled =>
        .ok { settled with pending := some (.config, none) }).map .more :=
      settle_bind_awaits .config
    exact ⟨_, conveys_pending .config _ fun settled => rfl, fun rest => congrArg _
      (readFrom_next (by decide) hawaits hplain rest)⟩
  | @root path hpath hplain =>
    refine ⟨_, conveys_root _, fun rest => ?_⟩
    have hreads : readArgument reading path = (readRoot reading path).map .more := by
      rw [readArgument_of_plain hplain, readValue_of_ready hready]
    rw [List.singleton_append, readFrom_cons hplain.ne_endOfOptions hreads, toOption_bind,
      toOption_bind, toOption_readRoot]

/-- A command line is read as what its items do one after the other. -/
theorem toOption_readFrom_line {items : List Item} {line : List Bytes} (h : Line items line)
    {reading : Reading} (hready : reading.Ready) :
    (readFrom reading line).toOption =
      (reading.settle.bind fun settled => items.foldlM Reading.take settled).toOption.map
        (.sweep ·.arguments) := by
  induction h generalizing reading with
  | nil =>
    rw [readFrom, finish]
    cases reading.settle <;> rfl
  | stop =>
    rw [readFrom, if_pos rfl, readRoots, Except.bind, finish]
    cases reading.settle <;> rfl
  | @stopRoot path hpath =>
    have hroots : readRoots reading [path] = readRoot reading path := by
      rw [readRoots]
      cases readRoot reading path <;> rfl
    rw [readFrom, if_pos rfl, hroots, toOption_bind, toOption_readRoot]
    cases hsettle : reading.settle with
    | error error => rfl
    | ok settled =>
      have htake := (conveys_root path).settle (Reading.settle_eq_ok hsettle).1
      have hfold : [Item.root path].foldlM Reading.take settled = settled.take (.root path) := by
        rw [List.foldlM_cons]
        cases settled.take (.root path) <;> rfl
      rw [Except.bind, Except.bind, hfold, ← htake]
      cases hnext : awaitRoot path settled with
      | error error => rfl
      | ok next =>
        rw [Except.toOption, Option.bind_some, finish, Except.bind]
        cases next.settle <;> rfl
  | @cons item items words line hspelled hrest ih =>
    obtain ⟨change, hchange, hreads⟩ := hspelled.exists_conveys hready
    rw [hreads]
    cases hsettle : reading.settle with
    | error error => rfl
    | ok settled =>
      have hpending := (Reading.settle_eq_ok hsettle).1
      have htake := hchange.settle hpending
      have hfold : (item :: items).foldlM Reading.take settled =
          (settled.take item).bind fun next => items.foldlM Reading.take next := rfl
      rw [Except.bind, Except.bind, hfold, toOption_bind, toOption_bind, ← htake]
      cases hnext : change settled with
      | error error => rfl
      | ok next =>
        rw [Except.toOption, Option.bind_some, ih (hchange.ready hpending hnext), Except.bind,
          toOption_bind]

/-- What an item says can be read. -/
def Item.Sound : Item → Prop
  | .config path => path ≠ []
  | .root path => path ≠ []
  | _ => True

theorem Spelled.sound {item : Item} {words : List Bytes} (h : Spelled item words) : item.Sound := by
  cases h with
  | config h => exact h
  | configNext h _ => exact h
  | root h _ => exact h
  | _ => trivial

theorem Line.sound {items : List Item} {line : List Bytes} (h : Line items line) :
    ∀ item ∈ items, item.Sound := by
  induction h with
  | nil => exact List.forall_mem_nil _
  | stop => exact List.forall_mem_nil _
  | stopRoot h => exact List.forall_mem_singleton.mpr h
  | cons h hrest ih => exact List.forall_mem_cons.mpr ⟨h.sound, ih⟩

namespace Reading

/-- These arguments have been read and nothing is pending. -/
def of (arguments : Arguments) : Reading := ⟨arguments, none, arguments.root.isSome⟩

variable {arguments : Arguments} {item : Item}

/-- An item about something new is added. -/
theorem take_of_not_has (hsound : item.Sound) (h : ¬arguments.Has item.choice) :
    (of arguments).take item = .ok (of (arguments.add item)) := by
  cases item with
  | flag which => exact if_neg h
  | exclude text =>
    have hnone : ¬arguments.exclude.isSome = true := h
    simp only [take, store, of, if_neg hnone, Utf8.decode?_encode, Arguments.add]
  | config path =>
    have hnone : ¬arguments.config.isSome = true := h
    have hpath : path ≠ [] := hsound
    simp only [take, store, of, if_neg hnone, if_neg hpath, Arguments.add]
  | root path =>
    have hnone : ¬arguments.root.isSome = true := h
    have hpath : path ≠ [] := hsound
    simp only [take, store, of, if_neg hnone, if_neg hpath, Arguments.add, Option.isSome_some]

/-- An item about something that has been said is refused. -/
theorem take_of_has (h : arguments.Has item.choice) :
    ∃ error, (of arguments).take item = .error error := by
  cases item with
  | flag which => exact ⟨_, if_pos h⟩
  | exclude text => exact ⟨_, if_pos h⟩
  | config path => exact ⟨_, if_pos h⟩
  | root path => exact ⟨_, if_pos h⟩

/-- Items that say nothing twice are added one after the other. -/
theorem foldlM_take_of_fresh {items : List Item} (hsound : ∀ item ∈ items, item.Sound)
    (h : arguments.Fresh items) :
    items.foldlM take (of arguments) = .ok (of (items.foldl Arguments.add arguments)) := by
  induction items generalizing arguments with
  | nil => rfl
  | cons item items ih =>
    obtain ⟨hitem, hitems⟩ := List.forall_mem_cons.mp hsound
    obtain ⟨hnew, hrest⟩ := Arguments.fresh_cons_iff.mp h
    rw [List.foldlM_cons, take_of_not_has hitem hnew]
    exact ih hitems hrest

/-- Items that say something twice are refused. -/
theorem foldlM_take_of_not_fresh {items : List Item} (hsound : ∀ item ∈ items, item.Sound)
    (h : ¬arguments.Fresh items) :
    ∃ error, items.foldlM take (of arguments) = .error error := by
  induction items generalizing arguments with
  | nil => exact absurd ⟨List.forall_mem_nil _, List.nodup_nil⟩ h
  | cons item items ih =>
    obtain ⟨hitem, hitems⟩ := List.forall_mem_cons.mp hsound
    rw [Arguments.fresh_cons_iff, not_and] at h
    rw [List.foldlM_cons]
    by_cases hhas : arguments.Has item.choice
    · obtain ⟨error, herror⟩ := take_of_has hhas
      exact ⟨error, by rw [herror]; rfl⟩
    · rw [take_of_not_has hitem hhas]
      exact ih hitems (h hhas)

end Reading

/-- The first reading is that of no arguments. -/
theorem toOption_read_line {items : List Item} {line : List Bytes} (h : Line items line) :
    (read line).toOption =
      (items.foldlM Reading.take (.of .none)).toOption.map (.sweep ·.arguments) :=
  toOption_readFrom_line h (Reading.ready_of_pending (rfl : Reading.start.pending = none))

/-- A line that says nothing twice asks for a sweep with what it says: the switches in the order in
which they come, and the root, the exclusion and the configuration that it names. -/
theorem read_line {items : List Item} {line : List Bytes} (h : Line items line)
    (hdistinct : (items.map Item.choice).Nodup) :
    read line = .ok (.sweep (items.foldl Arguments.add .none)) := by
  have hread := toOption_read_line h
  rw [Reading.foldlM_take_of_fresh h.sound ⟨fun item _ => Arguments.not_has_none _, hdistinct⟩]
    at hread
  cases hrequest : read line with
  | error error =>
    rw [hrequest] at hread
    cases hread
  | ok request =>
    rw [hrequest] at hread
    exact congrArg _ (Option.some.inj hread)

/-- Every switch, an empty exclusion, a configuration and a root that looks like an option. -/
example :
    read [ascii "--legacy", ascii "--exclude=", ascii "-v", ascii "--dry-run", ascii "--config",
      ascii "c.toml", ascii "--json", ascii "--", ascii "-r"] =
      .ok (.sweep ⟨some ⟨ascii "-r"⟩, some "", some ⟨ascii "c.toml"⟩,
        [.legacy, .verbose, .dryRun, .json]⟩) := by
  rfl

/-- A line that says something twice is refused. -/
theorem read_line_repeated {items : List Item} {line : List Bytes} (h : Line items line)
    (hrepeated : ¬(items.map Item.choice).Nodup) : ∃ error, read line = .error error := by
  have hnot : ¬Arguments.none.Fresh items := fun hfresh => hrepeated hfresh.2
  obtain ⟨error, herror⟩ := Reading.foldlM_take_of_not_fresh h.sound hnot
  have hread := toOption_read_line h
  rw [herror] at hread
  cases hrequest : read line with
  | error error => exact ⟨error, rfl⟩
  | ok request =>
    rw [hrequest] at hread
    cases hread

end DebugSweep.CommandLine
