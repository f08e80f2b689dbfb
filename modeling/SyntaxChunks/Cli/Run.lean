/-
# `Cli.Run` — a run of the program

A run is a function of the environment, the files, the parsers, the output and
the command line.  Settings given on the command line win over those of the
environment.  The exit status is 2 if the command line or the settings make no
sense, 1 if a file could not be read, and 0 otherwise.  A run fails if the
summary cannot be written: because a chunk that is to be shown has no id, or
because the output has no form for a code point of the text.
-/
import SyntaxChunks.Cli.Options
import SyntaxChunks.Json.Writer
import SyntaxChunks.Summary

namespace SyntaxChunks.Cli

/-- The settings of a command line. -/
def Options.overrides (o : Options) : Overrides where
  maxChunkChars := o.maxChars
  windowLines := o.windowLines
  overlapLines := o.overlapLines
  parseTimeout := o.timeout
  splitLeaves := if o.splitLeaves then some true else none

/-- What a run leaves behind: its exit status, what it printed, its log, and
what was wrong with its command line. -/
structure Outcome where
  exit : Nat
  printed : Text := ""
  log : List Log.Line := []
  usageError : Option UsageError := none
deriving DecidableEq, Repr

/-- The line that a wrong command line is answered with. -/
def UsageError.line (e : UsageError) : Text :=
  Log.programName ++ ": error: " ++ e.message

/-- The line before the files are chunked. -/
def startLine (o : Options) (registry : Registry) (config : Config) : Log.Line :=
  let work := s!"{o.paths.length} files with {registry.entries.length} languages"
  ⟨.info, .program, s!"Chunking {work} (max_chars={config.budget})"⟩

/-- The code points that an output has a form for. -/
abbrev Output := CodePoint → Bool

/-- The output that writes UTF-8. -/
def Output.utf8 : Output := CodePoint.isChar

/-- The output that keeps every text as it is. -/
def Output.verbatim : Output := fun _ => true

/-- The text of a summary, if the output can write it. -/
def printedText (output : Output) (summary : Summary) : Except Failure Text :=
  match summary.toJson? with
  | none => .error .notEncodable
  | some value =>
    if value.render.all output then .ok (value.render ++ "\n") else .error .notEncodable

/-- A run with the options of its command line. -/
def runWith (env : Environment) (files : FileSystem) (grammars : Grammars) (output : Output)
    (o : Options) : Except Failure Outcome :=
  match Config.ofEnvironment env o.overrides with
  | .error e =>
    .ok { exit := 2, log := [⟨.error, .program, s!"Invalid configuration: {e.message}"⟩] }
  | .ok config => do
    let registry ← (Registry.ofEnvironment env files).mapError .table
    let reports ← chunkPaths grammars files registry config o.paths
    let summary := Summary.of reports o.chunks
    let lines := startLine o registry config :: reports.flatMap FileReport.lines
    return {
      exit := if summary.failed = 0 then 0 else 1
      printed := ← printedText output summary
      log := lines.filter fun l => l.isShown o.verbose }

/-- A run on a command line. -/
def run (env : Environment) (files : FileSystem) (grammars : Grammars) (output : Output)
    (arguments : List Text) : Except Failure Outcome :=
  match Options.ofArguments arguments with
  | .ok o => runWith env files grammars output o
  | .error .help => .ok { exit := 0 }
  | .error (.misuse e) => .ok { exit := 2, usageError := some e }

end SyntaxChunks.Cli
