import RiskExchange.CutSet.SequenceLogic
import RiskExchange.Journal.Noted
import RiskExchange.Model.BuildError
import RiskExchange.Solver.Records

/-! # Event trees — functional events and the sequences through them

    The cut sets of the sequences are coded here but do not belong to the tree:
    they are kept apart, in the order of the sequences. -/

namespace RiskExchange.Model

open RiskExchange.CutSet (SequenceLogic encodeTerms)
open RiskExchange.Journal (Noted)
open RiskExchange.Solver

/-- The event that starts an event tree. -/
structure InitiatingEvent where
  name : Identifier
  eventTree : String
  deriving DecidableEq, Repr

/-- The initiating event of a header. -/
def InitiatingEvent.ofHeader (h : Header) : InitiatingEvent where
  name := .tagged .initiatingEvent h.tree.initiatingEvent.written
  eventTree := h.tree.name

/-- An event tree. -/
structure EventTree where
  name : String
  functionalEvents : List Identifier
  sequences : List Identifier
  deriving DecidableEq, Repr

namespace EventTree

/-- The tree has neither functional events nor sequences. -/
def isEmpty (t : EventTree) : Bool :=
  t.functionalEvents.isEmpty && t.sequences.isEmpty

/-- The names, unless one of them is repeated. -/
def distinct (ids : List Identifier) : Except BuildError (List Identifier) :=
  match Identifier.firstRepeated? [] ids with
  | none => .ok ids
  | some id => .error (.duplicateInEventTree id)

/-- The coded cut sets of the sequences of a header's event tree. -/
def logicOf (h : Header) (sequences : List SequenceRecord) : SequenceLogic :=
  .ofTree h.tree.name h.sequenceCount.written
    (sequences.map fun r => encodeTerms r.terms)

/-- Builds the event tree of a header, and the logic of its sequences. -/
def build (h : Header) (functionalEvents : List FunctionalEventRecord)
    (sequences : List SequenceRecord) :
    Noted BuildError (EventTree × SequenceLogic) := do
  let events ← Noted.ofExcept <| distinct <|
    functionalEvents.map fun r => .tagged .functionalEvent r.id.written
  let names ← Noted.ofExcept <| distinct <|
    sequences.map fun r => .tagged .sequence r.id.written
  Noted.note (.builtEventTree h.tree.name events.length names.length)
  return (⟨h.tree.name, events, names⟩, logicOf h sequences)

end EventTree
end RiskExchange.Model
