import RiskExchange.CommandLine.Help
import RiskExchange.CommandLine.Log
import RiskExchange.Conversion

/-! # Running — what a command line does and says

    A run works on a disk and ends with a status: 0 if it succeeds, 1 if the
    work fails, 2 if the words make no sense. What is said on the way goes to
    the log, from a level on that the verbosity sets. -/

namespace RiskExchange.CommandLine

open RiskExchange.Disk (Session)

/-! ## Failures -/

/-- Why the work fails: a message, and the cause that it wraps. -/
structure Failure where
  message : String
  cause : Option String
  deriving DecidableEq, Repr

/-- A text with its lines behind the first moved in. -/
def indentLines (s : String) : String :=
  String.ofList (s.toList.flatMap fun c =>
    if c = '\n' then ['\n', ' ', ' ', ' ', ' '] else [c])

/-- A failure in full. -/
def Failure.text (f : Failure) : String :=
  match f.cause with
  | none => f.message
  | some cause => f.message ++ "\n\nCaused by:\n    " ++ indentLines cause

/-- The failure of settings. -/
def Failure.ofSettings (path : String) (e : Settings.LoadError) : Failure :=
  ⟨path ++ ": " ++ e.message, none⟩

/-- The failure of a conversion. -/
def Failure.ofConversion (e : ConversionError) : Failure :=
  ⟨e.message, e.cause?⟩

/-! ## Commands -/

/-- The settings with what a command line sets itself. -/
def override (s : Settings) (store : Option String) (indent : Option Nat) :
    Settings where
  sequenceStore := store.getD s.sequenceStore
  indent := indent.getD s.indent

/-- What a conversion says when it has succeeded. -/
def report (r : Conversion.Request) (s : Summary) : String := unlines [
  "Wrote " ++ r.output,
  "  " ++ toString s.faultTrees ++ " fault trees, " ++ toString s.gates
    ++ " gates, " ++ toString s.basicEvents ++ " basic events, "
    ++ toString s.sequences ++ " sequences",
  "  Sequence logic stored as '" ++ s.storeKey ++ "' in "
    ++ r.settings.sequenceStore]

/-- The conversion that a command asks for. -/
def request (input : String) (output store : Option String)
    (indent : Option Nat) (s : Settings) : Conversion.Request where
  input := input
  output := output.getD (Disk.Path.withExtension input "xml")
  settings := override s store indent

/-- Carries out a command; what it says. -/
def Command.run (s : Settings) : Command → Session Failure String
  | .convert input output store indent => do
    let r := request input output store indent s
    let summary ← (Conversion.run r).mapError .ofConversion
    return report r summary
  | .encode terms =>
    return unlines [String.intercalate " "
      ((CutSet.encodeTerms terms).map (·.text))]

/-- Carries out a command with the settings of its file. -/
def Invocation.run (i : Invocation) : Session Failure String := do
  let settings ← (Settings.loadOrDefault i.config).mapError (.ofSettings i.config)
  i.command.run settings

/-! ## The whole run -/

/-- How a run ends. -/
structure Ending where
  status : Nat
  said : String
  failure : Option Failure
  log : List LogEntry

/-- Runs a command line on a disk. -/
def run (words : List String) (d : Disk) : Disk × Ending :=
  match Demand.ofWords words with
  | .wrong => (d, ⟨2, "", none, []⟩)
  | .help topic => (d, ⟨0, topic.text, none, []⟩)
  | .version => (d, ⟨0, versionText, none, []⟩)
  | .run i =>
    let (d, r) := i.run.run d
    let log := logged i.verbosity r.notices
    match r.result with
    | .ok said => (d, ⟨0, said, none, log⟩)
    | .error f => (d, ⟨1, "", some f, log⟩)

end RiskExchange.CommandLine
