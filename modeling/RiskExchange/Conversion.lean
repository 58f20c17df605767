import RiskExchange.Model.Markup
import RiskExchange.Settings
import RiskExchange.Solver.Loading
import RiskExchange.Store.SequenceStore

/-! # Conversions — a solver's file in, a document and an entry of a store out

    Nothing is written before the whole model has been built. The document is
    then staged in a file of its own beside the output and moved into place
    once the store has been saved. If the move fails the store is put back, and
    whatever fails, the staged file goes away. -/

namespace RiskExchange

open RiskExchange.CutSet (SequenceLogic)
open RiskExchange.Disk (Failure Session)
open RiskExchange.Store (SequenceStore StoreError)

/-- What a conversion has produced. -/
structure Summary where
  faultTrees : Nat
  gates : Nat
  basicEvents : Nat
  sequences : Nat
  storeKey : String
  deriving DecidableEq, Repr

/-- Why a conversion fails. -/
inductive ConversionError where
  | load (e : Solver.LoadError)
  | build (e : Model.BuildError)
  | store (e : StoreError)
  /-- The output cannot be written; the cause in the system's words. -/
  | output (path cause : String)
  deriving DecidableEq, Repr

/-- The wording of a `ConversionError`. -/
def ConversionError.message : ConversionError → String
  | .load e => e.message
  | .build e => e.message
  | .store e => e.message
  | .output path cause => "Failed to write " ++ path ++ ": " ++ cause

/-- The wording of the cause that an error wraps. -/
def ConversionError.cause? : ConversionError → Option String
  | .load e => e.cause?
  | .build e => e.cause?
  | .store e => e.cause?
  | .output _ cause => some cause

namespace Conversion

/-- The files of a conversion. -/
structure Request where
  input : String
  output : String
  settings : Settings
  deriving DecidableEq, Repr

/-- A failure to write the output. -/
def Request.outputError (r : Request) (e : Failure) : ConversionError :=
  .output r.output e.message

/-- Changes the disk for the sake of the output. -/
def Request.stepOutput {α : Type} (r : Request)
    (f : Disk → Disk × Except Failure α) : Session ConversionError α :=
  (Session.step f).mapError r.outputError

/-- The model of the input file. -/
def assemble (r : Request) : Session ConversionError Model.Assembly := do
  let solution ← (Solver.Solution.load r.input).mapError .load
  Session.note (.loadedRecords r.input)
  (Session.ofNoted (Model.assemble solution)).mapError .build

/-- The place of the staged file on a disk, in a directory. -/
def stagingPlace (r : Request) (d : Disk) (directory : Place) : Place :=
  directory ++ [d.freshName [r.output, r.settings.sequenceStore]]

/-- Stages the output: makes its directory and writes a file there that has a
    name of its own. -/
def stage (r : Request) (content : ByteArray) :
    Session ConversionError Place := do
  let directory := Disk.Path.directoryOf r.output
  r.stepOutput (·.createDirAll directory)
  r.stepOutput fun d =>
    match d.directoryAt directory with
    | .error e => (d, .error e)
    | .ok p =>
      let place := stagingPlace r d p
      (d.put place (.file content), .ok place)

/-- Saves the logic to the store; the store as it was before. -/
def updateStore (r : Request) (l : SequenceLogic) :
    Session ConversionError SequenceStore :=
  Session.mapError .store do
    let before ← SequenceStore.openAt r.settings.sequenceStore
    (before.insert l).save
    return before

/-- Moves the staged file to the output. If that fails the store is put back
    as it was, and a failure to do so is what is reported. -/
def place (r : Request) (staged : Place) (before : SequenceStore) :
    Session ConversionError Unit := do
  match ← ((Session.change (·.moveFile staged r.output)).attempt) with
  | .ok () => return ()
  | .error e =>
    Session.note (.rollingBack before.path r.output)
    before.rollback.mapError .store
    Session.fail (r.outputError e)

/-- What a conversion of a model has produced. -/
def summarize (a : Model.Assembly) : Summary where
  faultTrees := a.model.faultTrees.length
  gates := a.model.gateCount
  basicEvents := a.model.modelData.events.length
  sequences := a.model.eventTree.sequences.length
  storeKey := a.logic.key

/-- Converts a file. -/
def run (r : Request) : Session ConversionError Summary := do
  let a ← assemble r
  let staged ← stage r (a.model.render r.settings.indent).toUTF8
  Session.onFailure (·.erase staged) do
    let before ← updateStore r a.logic
    place r staged before
    Session.note (SequenceStore.persistedNotice before.path a.logic)
  Session.note (.wrote r.output)
  return summarize a

end Conversion
end RiskExchange
