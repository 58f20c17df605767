import RiskExchange.Markup.Writer
import RiskExchange.Model.Markup

/-! # Emission — models written piece by piece

    Each entity writes its own tags around those of its parts, whatever a piece
    is written by. What is written is the element of the entity, though it is
    never there as a whole. -/

namespace RiskExchange.Model

open RiskExchange.Markup (Attributes Device Piece Writing)

section Emission

variable {μ : Type → Type} [Monad μ] (event : Piece → μ Unit)

/-- Writes an empty element. -/
def emitEmpty (name : String) (attributes : Attributes) : μ Unit :=
  event (.single name attributes)

/-- Writes an element around what its children write. -/
def emitElement (name : String) (attributes : Attributes) (children : μ Unit) :
    μ Unit := do
  event (.opening name attributes)
  children
  event (.closing name)

/-- Writes an element that names an entity. -/
def emitReference (name : String) (id : Identifier) : μ Unit :=
  emitEmpty event name [("name", id.text)]

/-- Writes an initiating event. -/
def InitiatingEvent.emit (e : InitiatingEvent) : μ Unit :=
  emitEmpty event "define-initiating-event"
    [("name", e.name.text), ("event-tree", e.eventTree)]

/-- Writes an event tree. -/
def EventTree.emit (t : EventTree) : μ Unit :=
  if t.isEmpty then emitEmpty event "define-event-tree" [("name", t.name)]
  else emitElement event "define-event-tree" [("name", t.name)] do
    t.functionalEvents.forM (emitReference event "define-functional-event")
    t.sequences.forM (emitReference event "define-sequence")

/-- Writes a gate. -/
def Gate.emit (g : Gate) : μ Unit :=
  emitElement event "define-gate" [("name", g.name.text)] <|
    if g.inputCount = 0 then
      emitEmpty event g.kind.element g.kind.attributes
    else emitElement event g.kind.element g.kind.attributes do
      g.gates.forM (emitReference event "gate")
      g.events.forM (emitReference event "basic-event")
      g.complements.forM fun id =>
        emitElement event "not" [] (emitReference event "basic-event" id)

/-- Writes a fault tree. -/
def FaultTree.emit (t : FaultTree) : μ Unit :=
  if t.isEmpty then
    emitEmpty event "define-fault-tree" [("name", t.name.text)]
  else emitElement event "define-fault-tree" [("name", t.name.text)] <|
    t.gates.forM (Gate.emit event)

/-- Writes a declared event. -/
def BasicEvent.emit (e : BasicEvent) : μ Unit :=
  emitElement event "define-basic-event" [("name", e.name.text)] do
    emitElement event "label" [] (event (.text e.label))
    emitEmpty event "float" [("value", e.probability)]

/-- Writes the declared events. -/
def ModelData.emit (d : ModelData) : μ Unit :=
  if d.events.isEmpty then emitEmpty event "model-data" []
  else emitElement event "model-data" [] <|
    d.events.forM (BasicEvent.emit event)

/-- Writes a model. -/
def emit (m : Model) : μ Unit :=
  emitElement event "opsa-mef" [] do
    m.initiatingEvent.emit event
    m.eventTree.emit event
    m.faultTrees.forM (FaultTree.emit event)
    m.modelData.emit event

end Emission

/-- Writes the document of a model to a device. -/
def emitTo {σ : Type} (m : Model) (indent : Nat) (dev : Device σ) :
    Writing σ Unit :=
  dev.document do
    dev.event indent .declaration
    m.emit (dev.event indent)

end RiskExchange.Model
