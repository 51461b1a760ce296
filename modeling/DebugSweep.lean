import DebugSweep.Main
import DebugSweep.Source.Lexeme
import DebugSweep.Strip.Pattern
import DebugSweep.Tree.Planting
import DebugSweep.Proofs.Text.Encoding
import DebugSweep.Proofs.Text.Lines
import DebugSweep.Proofs.Source.Closing
import DebugSweep.Proofs.Source.Lexing
import DebugSweep.Proofs.Source.Candidate
import DebugSweep.Proofs.Source.Call
import DebugSweep.Proofs.Source.Recogniser
import DebugSweep.Proofs.Source.Lookahead
import DebugSweep.Proofs.Source.Segment
import DebugSweep.Proofs.Source.Concatenation
import DebugSweep.Proofs.Source.Written
import DebugSweep.Proofs.Source.Trivia
import DebugSweep.Proofs.Strip.Relexing
import DebugSweep.Proofs.Strip.Offsets
import DebugSweep.Proofs.Strip.CodeKept
import DebugSweep.Proofs.Strip.Idempotence
import DebugSweep.Proofs.Strip.Calls
import DebugSweep.Proofs.Strip.Ranges
import DebugSweep.Proofs.Strip.Rewriting
import DebugSweep.Proofs.Strip.Reduction
import DebugSweep.Proofs.Strip.Concatenation
import DebugSweep.Proofs.Strip.WholeCall
import DebugSweep.Proofs.Strip.Matching
import DebugSweep.Proofs.Strip.Patterns
import DebugSweep.Proofs.Sweep.Cleaning
import DebugSweep.Proofs.Sweep.Convergence
import DebugSweep.Proofs.Sweep.Exclusion
import DebugSweep.Proofs.Sweep.Totals
import DebugSweep.Proofs.Sweep.Independence
import DebugSweep.Proofs.Strip.Leftovers
import DebugSweep.Proofs.Sweep.DryRun
import DebugSweep.Proofs.Source.PlainArguments
import DebugSweep.Proofs.Source.Callless
import DebugSweep.Proofs.Strip.PlainLines
import DebugSweep.Proofs.Sweep.Turns
import DebugSweep.Proofs.Sweep.Accounts
import DebugSweep.Proofs.Sweep.Undisturbed
import DebugSweep.Proofs.CommandLine.Reading
import DebugSweep.Proofs.CommandLine.Refinement
import DebugSweep.Proofs.Text.Validity
import DebugSweep.Proofs.Strip.Validity
import DebugSweep.Proofs.Sweep.Rerun
import DebugSweep.Proofs.Strip.BroadMatches
import DebugSweep.Proofs.Sweep.Effect
import DebugSweep.Proofs.Json.Parts
import DebugSweep.Proofs.Report.Failures
import DebugSweep.Cursor
import DebugSweep.Proofs.Cursor.Lexers
import DebugSweep.Proofs.Cursor.Statements
import DebugSweep.Proofs.Strip.SoundSpans
import DebugSweep.Json.Token
import DebugSweep.Json.Reader
import DebugSweep.Report.Decoding
import DebugSweep.Proofs.Text.Occurrences
import DebugSweep.Proofs.Strip.Markers
import DebugSweep.Proofs.Text.BareEnds
import DebugSweep.Proofs.Source.BareRegions
import DebugSweep.Proofs.Source.BareStatements
import DebugSweep.Proofs.Strip.BareEnds
import DebugSweep.Proofs.Tree.Names
import DebugSweep.Proofs.Tree.Resolution
import DebugSweep.Proofs.Tree.Listing
import DebugSweep.Proofs.Sweep.Complete
import DebugSweep.Proofs.Text.Decoding
import DebugSweep.Proofs.Json.Cutting
import DebugSweep.Proofs.Json.Reading
import DebugSweep.Proofs.Report.Decoding
import DebugSweep.Cursor.Unguarded
import DebugSweep.Proofs.Cursor.Termination
import DebugSweep.Proofs.Toml.Members
import DebugSweep.Proofs.Toml.Strings
import DebugSweep.Proofs.Toml.Entries
import DebugSweep.Proofs.Config.Loading
