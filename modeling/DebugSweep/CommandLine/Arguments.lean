import DebugSweep.Path

/-!
# Arguments

What a command line asks for. An option that takes a value has it attached by `=` or as the next
argument, which then may not look like an option itself. Such a value is checked only when the
next option, the root or the end of the line settles it. After `--` every argument is a root.
Reading stops at the first fault and at the first request for help or the version.
-/

namespace DebugSweep.CommandLine

/-- A switch. -/
inductive Flag where
  | legacy
  | dryRun
  | verbose
  | json
  deriving DecidableEq, Repr

/-- An argument that has a value. -/
inductive Slot where
  | root
  | exclude
  | config
  deriving DecidableEq, Repr

/-- What stands behind the name of an option. -/
inductive Choice where
  | flag (flag : Flag)
  | slot (slot : Slot)
  | help
  | version
  deriving DecidableEq, Repr

/-- What a sweep is asked to do. -/
structure Arguments where
  root : Option Path
  exclude : Option String
  config : Option Path
  flags : List Flag
  deriving DecidableEq, Repr

/-- What a command line asks for. -/
inductive Request where
  | sweep (arguments : Arguments)
  /-- The help text, the long one or the short one. -/
  | help (long : Bool)
  | version
  deriving DecidableEq, Repr

/-- What is wrong with a command line. -/
inductive UsageError where
  | unexpectedArgument (argument : String)
  | valueRequired (slot : Slot)
  | usedTwice (choice : Choice)
  | unexpectedValue (value : String) (choice : Choice)
  | notText
  deriving DecidableEq, Repr

/-- The switch as it is shown. -/
def Flag.name : Flag → String
  | .legacy => "--legacy"
  | .dryRun => "--dry-run"
  | .verbose => "--verbose"
  | .json => "--json"

/-- The argument as it is shown. -/
def Slot.name : Slot → String
  | .root => "[ROOT]"
  | .exclude => "--exclude <NAME>"
  | .config => "--config <PATH>"

/-- The option as it is shown. -/
def Choice.name : Choice → String
  | .flag which => which.name
  | .slot which => which.name
  | .help => "--help"
  | .version => "--version"

/-- The fault as it is shown. -/
def UsageError.message : UsageError → String
  | .unexpectedArgument argument => s!"error: unexpected argument '{argument}' found"
  | .valueRequired slot => s!"error: a value is required for '{slot.name}' but none was supplied"
  | .usedTwice choice => s!"error: the argument '{choice.name}' cannot be used multiple times"
  | .unexpectedValue value choice =>
    s!"error: unexpected value '{value}' for '{choice.name}' found; no more were expected"
  | .notText => "error: invalid UTF-8 was detected in one or more arguments"

/-- The option of a long name. -/
def longChoice? (name : Bytes) : Option Choice :=
  [(ascii "exclude", Choice.slot .exclude), (ascii "config", .slot .config),
    (ascii "legacy", .flag .legacy), (ascii "dry-run", .flag .dryRun),
    (ascii "verbose", .flag .verbose), (ascii "json", .flag .json),
    (ascii "help", .help), (ascii "version", .version)].lookup name

/-- The option of a letter. -/
def shortChoice? (letter : Char) : Option Choice :=
  [('v', Choice.flag .verbose), ('h', .help), ('V', .version)].lookup letter

/-- What has been read of a command line. -/
structure Reading where
  arguments : Arguments
  /-- The argument whose value is not settled yet, with the value if it has come. -/
  pending : Option (Slot × Option Bytes)
  /-- Whether a root has come. -/
  rootGiven : Bool
  deriving DecidableEq, Repr

namespace Reading

/-- Nothing has been read. -/
def start : Reading := ⟨⟨none, none, none, []⟩, none, false⟩

/-- Store the value of an argument. -/
def store (reading : Reading) (slot : Slot) (value : Bytes) : Except UsageError Reading :=
  let arguments := reading.arguments
  match slot with
  | .root =>
    if value = [] then .error (.valueRequired .root)
    else .ok { reading with arguments := { arguments with root := some ⟨value⟩ } }
  | .exclude =>
    if arguments.exclude.isSome then .error (.usedTwice (.slot .exclude))
    else
      match Utf8.decode? value with
      | none => .error .notText
      | some text =>
        .ok { reading with arguments := { arguments with exclude := some (String.ofList text) } }
  | .config =>
    if arguments.config.isSome then .error (.usedTwice (.slot .config))
    else if value = [] then .error (.valueRequired .config)
    else .ok { reading with arguments := { arguments with config := some ⟨value⟩ } }

/-- Settle the value that is pending. -/
def settle (reading : Reading) : Except UsageError Reading :=
  match reading.pending with
  | none => .ok reading
  | some (slot, none) => .error (.valueRequired slot)
  | some (slot, some value) => { reading with pending := none }.store slot value

/-- Turn a switch on. -/
def turnOn (reading : Reading) (flag : Flag) : Except UsageError Reading :=
  let arguments := reading.arguments
  if flag ∈ arguments.flags then .error (.usedTwice (.flag flag))
  else .ok { reading with arguments := { arguments with flags := arguments.flags ++ [flag] } }

end Reading

/-- What reading one argument leads to: more to read, or a request that is known already. -/
inductive Verdict where
  | more (reading : Reading)
  | done (request : Request)

/-- Read an option that was written with two hyphens. -/
def readLong (reading : Reading) (text : Bytes) : Except UsageError Verdict := do
  let name := text.takeWhile (· != Byte.equals)
  let value? := (text.dropWhile (· != Byte.equals)).tail?
  match longChoice? name, value? with
  | none, _ => .error (.unexpectedArgument ("--" ++ Utf8.lossy name))
  | some (.slot slot), some value =>
    let reading ← reading.settle
    .ok (.more (← reading.store slot value))
  | some (.slot slot), none =>
    let reading ← reading.settle
    .ok (.more { reading with pending := some (slot, none) })
  | some choice, some value => .error (.unexpectedValue (Utf8.lossy value) choice)
  | some (.flag flag), none =>
    let reading ← reading.settle
    .ok (.more (← reading.turnOn flag))
  | some .help, none => do
    let _ ← reading.settle
    .ok (.done (.help true))
  | some .version, none => do
    let _ ← reading.settle
    .ok (.done .version)

/-- Read the letters after one hyphen. -/
def readShort (reading : Reading) : List (Option Char) → Except UsageError Verdict
  | [] => .ok (.more reading)
  | letter :: letters =>
    match letter, letter.bind shortChoice? with
    | _, some (.flag flag) => do
      let reading ← reading.settle
      let reading ← reading.turnOn flag
      readShort reading letters
    | _, some .help => do
      let _ ← reading.settle
      .ok (.done (.help false))
    | _, some .version => do
      let _ ← reading.settle
      .ok (.done .version)
    | some c, _ => .error (.unexpectedArgument s!"-{c}")
    | none, _ =>
      let rest := (letter :: letters).map (·.getD Utf8.replacement)
      .error (.unexpectedArgument ("-" ++ String.ofList rest))

/-- Read an argument that is no option. -/
def readRoot (reading : Reading) (argument : Bytes) : Except UsageError Reading := do
  if reading.rootGiven then .error (.unexpectedArgument (Utf8.lossy argument))
  else
    let reading ← reading.settle
    .ok { reading with pending := some (.root, some argument), rootGiven := true }

/-- Read an argument that does not look like an option: the value that is awaited, or the root. -/
def readValue (reading : Reading) (argument : Bytes) : Except UsageError Reading :=
  match reading.pending with
  | some (slot, none) => .ok { reading with pending := some (slot, some argument) }
  | _ => readRoot reading argument

/-- Read an argument that stands before any `--`. A hyphen alone is no option. -/
def readArgument (reading : Reading) (argument : Bytes) : Except UsageError Verdict :=
  match argument with
  | b :: c :: text =>
    if b ≠ Byte.hyphen then (readValue reading argument).map .more
    else if c = Byte.hyphen then readLong reading text
    else readShort reading (Utf8.units (c :: text))
  | _ => (readValue reading argument).map .more

/-- What ends the options. -/
def endOfOptions : Bytes := [Byte.hyphen, Byte.hyphen]

/-- Read the arguments after `--`. -/
def readRoots (reading : Reading) : List Bytes → Except UsageError Reading
  | [] => .ok reading
  | argument :: rest => do readRoots (← readRoot reading argument) rest

/-- What was asked for, once every argument has been read. -/
def finish (reading : Reading) : Except UsageError Request :=
  reading.settle.map (.sweep ·.arguments)

/-- Read the arguments that are left. -/
def readFrom (reading : Reading) : List Bytes → Except UsageError Request
  | [] => finish reading
  | argument :: rest =>
    if argument = endOfOptions then (readRoots reading rest).bind finish
    else
      match readArgument reading argument with
      | .error error => .error error
      | .ok (.done request) => .ok request
      | .ok (.more reading) => readFrom reading rest

/-- What a command line asks for. -/
def read (arguments : List Bytes) : Except UsageError Request := readFrom .start arguments

end DebugSweep.CommandLine
