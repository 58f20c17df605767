import RiskExchange.Main
import RiskExchange.Proofs.Disk.Entries
import RiskExchange.Proofs.Disk.Directories
import RiskExchange.Proofs.Disk.Sessions
import RiskExchange.Proofs.Store.Files
import RiskExchange.Proofs.Conversion.Steps
import RiskExchange.Proofs.Conversion.Outcomes
import RiskExchange.Proofs.Conversion.Failures
import RiskExchange.Proofs.Number.Rounding
import RiskExchange.Proofs.Number.Shortest
import RiskExchange.Proofs.Json.Ranges
import RiskExchange.Proofs.Json.NumberText
import RiskExchange.Proofs.Json.Strings
import RiskExchange.Proofs.Json.Trees
import RiskExchange.Proofs.Json.Members
import RiskExchange.Proofs.Json.Rereading
import RiskExchange.Proofs.Identifier
import RiskExchange.Proofs.Text.Unsigned
import RiskExchange.Proofs.Toml.Lines
import RiskExchange.Proofs.Toml.Strings
import RiskExchange.Proofs.Settings
import RiskExchange.Proofs.CutSet.TermCode
import RiskExchange.Proofs.CutSet.Folding
import RiskExchange.Proofs.CutSet.TermLists
import RiskExchange.Proofs.Store.Entries
import RiskExchange.Proofs.Store.Handles
import RiskExchange.Proofs.Disk.Places
import RiskExchange.Proofs.Store.Reopening
import RiskExchange.Proofs.Conversion.Ledgers
import RiskExchange.Proofs.Json.Sameness
import RiskExchange.Proofs.Store.Persisting
import RiskExchange.Proofs.Store.RollingBack
import RiskExchange.Proofs.Json.Datum
import RiskExchange.Proofs.Json.Respelling
import RiskExchange.Proofs.Store.OtherEntries
import RiskExchange.Proofs.Markup.Rendering
import RiskExchange.Proofs.Model.Counts
import RiskExchange.Proofs.Model.Assembled
import RiskExchange.Proofs.Conversion.Successes
import RiskExchange.Proofs.Conversion.Coinciding
import RiskExchange.Proofs.Markup.Grammar
import RiskExchange.Proofs.Markup.Spelling
import RiskExchange.Proofs.Markup.Reading
import RiskExchange.Proofs.Markup.Schema
import RiskExchange.Proofs.Model.Shape
import RiskExchange.Proofs.Model.Reading
import RiskExchange.Proofs.Markup.Indentation
import RiskExchange.Proofs.Model.Indentation
import RiskExchange.Proofs.Model.Characters
import RiskExchange.Proofs.Json.Grammar
import RiskExchange.Proofs.Json.Parsing
import RiskExchange.Proofs.Json.Lexing
import RiskExchange.Proofs.Json.Recognition
import RiskExchange.Proofs.Json.Records
import RiskExchange.Proofs.Json.Acceptance
import RiskExchange.Proofs.Json.Rearranging
import RiskExchange.Proofs.Solver.Rearranging
import RiskExchange.Proofs.Solver.Respelling
import RiskExchange.Proofs.Model.Naming
import RiskExchange.Proofs.Model.Acceptance
import RiskExchange.Proofs.Store.Keys
import RiskExchange.Proofs.Number.Nearest
import RiskExchange.Proofs.Number.Decimals
import RiskExchange.Proofs.Number.Significant
import RiskExchange.Proofs.Number.SevenDigits
import RiskExchange.Proofs.Number.Order
import RiskExchange.Proofs.Number.Literals
import RiskExchange.Proofs.Number.ReadingBack
import RiskExchange.Proofs.Number.Nearness
import RiskExchange.Proofs.Json.DecimalReading
import RiskExchange.Proofs.Json.Integers
import RiskExchange.Proofs.Json.Underflow
import RiskExchange.Proofs.Solver.IntegerIds
import RiskExchange.Proofs.Solver.GateInputs
import RiskExchange.Proofs.Solver.Terms
import RiskExchange.Proofs.Model.ProbabilityText
import RiskExchange.Proofs.Model.Probabilities
import RiskExchange.Proofs.Model.ProbabilityOrder
import RiskExchange.Proofs.Model.Gates
import RiskExchange.Proofs.Model.References
import RiskExchange.Proofs.Model.Declarations
import RiskExchange.Proofs.Model.CorrectionGates
import RiskExchange.Proofs.Text.Padding
import RiskExchange.Proofs.Markup.Listing
import RiskExchange.Proofs.Model.ArityWarnings
import RiskExchange.Proofs.Model.GateKinds
import RiskExchange.Proofs.CommandLine.Runs
import RiskExchange.Model.Emission
import RiskExchange.Proofs.Model.Emission
