import RiskExchange.Journal.Noted
import RiskExchange.Model.Probability
import RiskExchange.Solver.Records

/-! # Basic events — the declared events of a model

    An event is declared if no correction gate owns it and it is not one of the
    solver's logical constants. Every event of a solution is declared or
    reported as skipped, in order. -/

namespace RiskExchange.Model

open RiskExchange.Journal (Noted Notice)
open RiskExchange.Solver (RawId EventRecord)

/-- A declared event with its label and its probability as spelled. -/
structure BasicEvent where
  name : Identifier
  label : String
  probability : String
  deriving DecidableEq, Repr

/-- The declared events of a model. -/
structure ModelData where
  events : List BasicEvent
  deriving DecidableEq, Repr

/-- The labels of the solver's logical constants. -/
def constantLabels : List String := ["<TRUE>", "<FALSE>", "<PASS>"]

/-- No gate owns the event: the id of its correction gate is zero as a number,
    however it is spelled. -/
def isPrimary (correctionGate : RawId) : Bool :=
  match Probability.read? correctionGate.written with
  | some x => x.isZero
  | none => false

namespace ModelData

/-- The notice about an event that is left out. -/
def skipNotice? (r : EventRecord) : Option Notice :=
  if !isPrimary r.correctionGate then
    some (.skippedOwned r.id.written r.correctionGate.written)
  else if constantLabels.contains r.label then
    some (.skippedConstant r.id.written r.label)
  else none

/-- The declaration of an event. -/
def declare (name : Identifier) (r : EventRecord) :
    Except BuildError BasicEvent :=
  match Probability.normalize r.probability.written with
  | .ok p => .ok ⟨name, r.label, p⟩
  | .error e => .error (.probability name e)

/-- Declares events one after the other. A name that is taken is reported
    before the event's probability is looked at. -/
def declareAll :
    List Identifier → List EventRecord → Noted BuildError (List BasicEvent)
  | _, [] => return []
  | taken, r :: rest =>
    match skipNotice? r with
    | some n => do
      Noted.note n
      declareAll taken rest
    | none => do
      let name := Identifier.tagged .basicEvent r.id.written
      if taken.contains name then Noted.fail (.duplicateEvent name)
      let event ← Noted.ofExcept (declare name r)
      let events ← declareAll (name :: taken) rest
      return event :: events

/-- Builds the declarations of a list of events. -/
def build (records : List EventRecord) : Noted BuildError ModelData := do
  let events ← declareAll [] records
  Noted.note (.builtModelData events.length)
  return ⟨events⟩

end ModelData
end RiskExchange.Model
