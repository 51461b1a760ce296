/-!
# Help texts

Every option has a spelling and a description. The short text puts both on one line, the long one
puts the description on a line of its own.
-/

namespace DebugSweep.CommandLine

/-- The name under which the program runs. -/
def programName : String := "printstrip"

/-- The version of the program. -/
def version : String := "0.1.0"

/-- What is printed when the version is asked for. -/
def versionText : String := s!"{programName} {version}\n"

/-- The spellings of the options with their descriptions, the help option aside. -/
def optionTexts : List (String × String) := [
  ("    --exclude <NAME>", "Path substring of the logging-utility file to leave untouched"),
  ("    --legacy", "Use the original regex passes instead of the statement scanner"),
  ("    --dry-run", "Report what would change without writing any file"),
  ("    --config <PATH>", "Config file to read instead of ./.printstrip.toml"),
  ("-v, --verbose", "Enable verbose output"),
  ("    --json", "Output in JSON format (machine-readable)")]

/-- The options in the order they are listed, where `other` tells of the other help text. -/
def listed (other : String) : List (String × String) :=
  optionTexts ++ [("-h, --help", s!"Print help ({other})"), ("-V, --version", "Print version")]

/-- How the program is called. -/
def usage : String := s!"Usage: {programName} [OPTIONS] [ROOT]"

/-- What the root is. -/
def rootText : String :=
  "Directory to clean (defaults to the configured root, ruwaq_jawi/lib/core)"

/-- A text with blanks up to a width. -/
def padded (width : Nat) (text : String) : String :=
  text ++ String.ofList (List.replicate (width - text.length) ' ')

/-- The width of the spellings in the short text. -/
def spellingWidth : Nat := 20

/-- The short help text. -/
def shortHelp : String :=
  let options := (listed "see more with '--help'").map fun (spelling, description) =>
    s!"  {padded spellingWidth spelling}  {description}\n"
  String.join ([
    "Strip print() and debugPrint() statements from Dart sources\n\n",
    s!"{usage}\n\nArguments:\n  [ROOT]  {rootText}\n\nOptions:\n"] ++ options)

/-- The long help text. -/
def longHelp : String :=
  let options := (listed "see a summary with '-h'").map fun (spelling, description) =>
    s!"  {spelling}\n          {description}\n"
  String.join [
    "Walk a directory of .dart files and replace every print() and debugPrint()\n",
    "statement with a `// Debug logging removed` comment.\n\n",
    "The logging-utility file (app_logger.dart) is never modified.\n\n",
    s!"{usage}\n\nArguments:\n  [ROOT]\n          {rootText}\n\nOptions:\n",
    "\n".intercalate options]

/-- The help text. -/
def help (long : Bool) : String := if long then longHelp else shortHelp

end DebugSweep.CommandLine
