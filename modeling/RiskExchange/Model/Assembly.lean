import RiskExchange.Model.BasicEvent
import RiskExchange.Model.EventTree
import RiskExchange.Model.FaultTree

/-! # Models — everything that one solution describes

    A model is built in a fixed order, and the first error ends it: the event
    tree, the fault trees, the basic events. -/

namespace RiskExchange

open RiskExchange.CutSet (SequenceLogic)
open RiskExchange.Journal (Noted)
open RiskExchange.Model

/-- A model in the order in which it is written. -/
structure Model where
  initiatingEvent : InitiatingEvent
  eventTree : EventTree
  faultTrees : List FaultTree
  modelData : ModelData
  deriving DecidableEq, Repr

namespace Model

/-- The number of gates of all fault trees. -/
def gateCount (m : Model) : Nat :=
  m.faultTrees.foldr (fun t gates => t.gates.length + gates) 0

/-- A model, and the coded cut sets that go with it. -/
structure Assembly where
  model : Model
  logic : SequenceLogic
  deriving DecidableEq, Repr

/-- Builds the model of a solution. -/
def assemble (s : Solver.Solution) : Noted BuildError Assembly := do
  let (eventTree, logic) ←
    EventTree.build s.header s.functionalEvents s.sequences
  let faultTrees ← FaultTree.buildAll [] s.faultTrees
  let modelData ← ModelData.build s.events
  Noted.note
    (.assembled eventTree.name faultTrees.length modelData.events.length)
  return {
    model := {
      initiatingEvent := .ofHeader s.header
      eventTree := eventTree
      faultTrees := faultTrees
      modelData := modelData }
    logic := logic }

end Model
end RiskExchange
