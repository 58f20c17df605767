import RiskExchange.Markup.Sink
import RiskExchange.Model.Assembly

/-! # Model markup — the elements of the model exchange format

    A model is one `opsa-mef` element: the initiating event, the event tree,
    the fault trees and the declarations of basic events, in this order. An
    entity without parts is an empty element. -/

namespace RiskExchange

open RiskExchange.Markup (Element Piece Sink)

namespace Model

/-- An element that names an entity. -/
def nameElement (element : String) (id : Identifier) : Element :=
  .empty element [("name", id.text)]

/-- The element of an initiating event. -/
def InitiatingEvent.toElement (e : InitiatingEvent) : Element :=
  .empty "define-initiating-event"
    [("name", e.name.text), ("event-tree", e.eventTree)]

/-- The element of an event tree: functional events, then sequences. -/
def EventTree.toElement (t : EventTree) : Element :=
  .nodeOrEmpty "define-event-tree" [("name", t.name)] <|
    t.functionalEvents.map (nameElement "define-functional-event")
      ++ t.sequences.map (nameElement "define-sequence")

/-- The name of the element of a gate's connective. -/
def GateKind.element : GateKind → String
  | .or => "or"
  | .and => "and"
  | .atLeast _ => "atleast"

/-- The attributes of a gate's connective. -/
def GateKind.attributes : GateKind → Markup.Attributes
  | .atLeast k => [("min", toString k)]
  | _ => []

/-- The elements of a gate's inputs: gates, events, complemented events. -/
def Gate.inputElements (g : Gate) : List Element :=
  g.gates.map (nameElement "gate")
    ++ g.events.map (nameElement "basic-event")
    ++ g.complements.map fun id =>
        .node "not" [] [nameElement "basic-event" id]

/-- The element of a gate. -/
def Gate.toElement (g : Gate) : Element :=
  .node "define-gate" [("name", g.name.text)]
    [.nodeOrEmpty g.kind.element g.kind.attributes g.inputElements]

/-- The element of a fault tree. -/
def FaultTree.toElement (t : FaultTree) : Element :=
  .nodeOrEmpty "define-fault-tree" [("name", t.name.text)]
    (t.gates.map (·.toElement))

/-- The element of a declared event: its label and its probability. -/
def BasicEvent.toElement (e : BasicEvent) : Element :=
  .node "define-basic-event" [("name", e.name.text)]
    [.text "label" e.label, .empty "float" [("value", e.probability)]]

/-- The element of all declared events. -/
def ModelData.toElement (d : ModelData) : Element :=
  .nodeOrEmpty "model-data" [] (d.events.map (·.toElement))

/-- The element of a model. -/
def toElement (m : Model) : Element :=
  .node "opsa-mef" [] <|
    m.initiatingEvent.toElement :: m.eventTree.toElement
      :: m.faultTrees.map (·.toElement) ++ [m.modelData.toElement]

/-- The pieces of a model's document. -/
def pieces (m : Model) : List Piece := .declaration :: m.toElement.pieces

/-- The document of a model, as a text. -/
def render (m : Model) (indent : Nat) : String :=
  Markup.render indent m.pieces

/-- Writes the document of a model to a sink. -/
def writeTo (m : Model) (indent : Nat) (s : Sink) : Sink × Bool :=
  s.write indent m.pieces

end Model
end RiskExchange
