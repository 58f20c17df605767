import RiskExchange.Proofs.Identifier
import RiskExchange.Proofs.Markup.Reading
import RiskExchange.Proofs.Model.Shape

/-! # Reading — a model is read back from its document

    A name can be read off its text (`Identifier.ofText?_text`). An element of
    a model holds everything that the model does, and elements of different
    kinds have different names, so the model can be read off its element
    (`ofElement?_toElement`). Hence a text is the document of at most one model
    (`document_determines_model`). -/

namespace RiskExchange

/-! ## Parts of elements -/

namespace Markup

namespace Element

/-- The attributes of an element of a name, and what is inside. -/
def inside? (name : String) : Element → Option (Attributes × List Element)
  | .empty n attributes => if n = name then some (attributes, []) else none
  | .node n attributes children =>
    if n = name then some (attributes, children) else none
  | .text _ _ => none

/-- The value of its only attribute, and what is inside. -/
def value? (name key : String) (e : Element) :
    Option (String × List Element) := do
  let ([(k, value)], children) ← e.inside? name | none
  if k = key then some (value, children) else none

/-- The text in an element of a name. -/
def content? (name : String) : Element → Option String
  | .text n content => if n = name then some content else none
  | _ => none

variable {name key value : String} {attributes : Attributes}
  {children : List Element}

theorem inside?_nodeOrEmpty :
    (nodeOrEmpty name attributes children).inside? name
      = some (attributes, children) := by
  cases children <;> exact if_pos rfl

theorem inside?_of_ne {e : Element} (h : e.name ≠ name) :
    e.inside? name = none := by
  cases e with
  | empty n attributes => exact if_neg h
  | text n content => rfl
  | node n attributes children => exact if_neg h

theorem value?_of_ne {e : Element} (h : e.name ≠ name) :
    e.value? name key = none := by
  rw [value?, inside?_of_ne h]
  rfl

theorem value?_empty :
    (empty name [(key, value)]).value? name key = some (value, []) := by
  simp [value?, inside?]

theorem value?_node :
    (node name [(key, value)] children).value? name key
      = some (value, children) := by
  simp [value?, inside?]

theorem value?_nodeOrEmpty :
    (nodeOrEmpty name [(key, value)] children).value? name key
      = some (value, children) := by
  simp [value?, inside?_nodeOrEmpty]

end Element

variable {α : Type} {read : Element → Option α} {f : α → Element}

/-- Reads elements as long as that is possible, and says which are left. -/
def readRun (read : Element → Option α) :
    List Element → List α × List Element
  | [] => ([], [])
  | e :: rest =>
    match read e with
    | some a =>
      let (as, left) := readRun read rest
      (a :: as, left)
    | none => ([], e :: rest)

theorem readRun_map (h : ∀ a, read (f a) = some a) (as : List α)
    {rest : List Element} (hrest : ∀ e ∈ rest, read e = none) :
    readRun read (as.map f ++ rest) = (as, rest) := by
  induction as with
  | nil =>
      cases rest with
      | nil => rfl
      | cons e more =>
          have hnone := hrest e (List.mem_cons_self ..)
          rw [List.map_nil, List.nil_append, readRun, hnone]
  | cons a more ih =>
      rw [List.map_cons, List.cons_append, readRun, h]
      simp only [ih]

theorem readRun_map_nil (h : ∀ a, read (f a) = some a) (as : List α) :
    readRun read (as.map f) = (as, []) := by
  have hnone : ∀ e ∈ ([] : List Element), read e = none := by
    intro e he
    exact nomatch he
  have hrun := readRun_map h as hnone
  rwa [List.append_nil] at hrun

end Markup

/-! ## Entities -/

namespace Model

open RiskExchange.Markup

/-- The entity that an element names. -/
def nameElement? (element : String) (e : Element) : Option Identifier := do
  let (text, []) ← e.value? element "name" | none
  Identifier.ofText? text

theorem nameElement?_nameElement (element : String) (id : Identifier) :
    nameElement? element (nameElement element id) = some id := by
  simp [nameElement?, nameElement, Element.value?_empty,
    Identifier.ofText?_text]

theorem nameElement?_of_ne {element : String} {e : Element}
    (h : e.name ≠ element) : nameElement? element e = none := by
  simp [nameElement?, Element.value?_of_ne h]

/-- Reads an initiating event. -/
def InitiatingEvent.ofElement? (e : Element) : Option InitiatingEvent := do
  let ([(k, name), (k', eventTree)], []) ←
    e.inside? "define-initiating-event" | none
  if k = "name" ∧ k' = "event-tree" then
    return ⟨← Identifier.ofText? name, eventTree⟩
  else none

theorem InitiatingEvent.ofElement?_toElement (e : InitiatingEvent) :
    ofElement? e.toElement = some e := by
  simp [ofElement?, toElement, Element.inside?, Identifier.ofText?_text]

/-- Reads an event tree: functional events, then sequences. -/
def EventTree.ofElement? (e : Element) : Option EventTree := do
  let (name, children) ← e.value? "define-event-tree" "name"
  let (functionalEvents, left) :=
    readRun (nameElement? "define-functional-event") children
  let (sequences, []) := readRun (nameElement? "define-sequence") left | none
  return ⟨name, functionalEvents, sequences⟩

theorem EventTree.ofElement?_toElement (t : EventTree) :
    ofElement? t.toElement = some t := by
  have hrun : readRun (nameElement? "define-functional-event")
      (t.functionalEvents.map (nameElement "define-functional-event")
        ++ t.sequences.map (nameElement "define-sequence"))
      = (t.functionalEvents,
          t.sequences.map (nameElement "define-sequence")) := by
    refine readRun_map (nameElement?_nameElement _) _ ?_
    intro e he
    obtain ⟨id, -, rfl⟩ := List.mem_map.mp he
    exact nameElement?_of_ne (by simp [nameElement, Element.name])
  simp [ofElement?, toElement, Element.value?_nodeOrEmpty, hrun,
    readRun_map_nil (nameElement?_nameElement _)]

/-- Reads a number written in decimal. -/
def number? (s : String) : Option Nat :=
  if s.toList ≠ [] ∧ s.toList.all Char.isDigit then
    some (Nat.ofDigitChars 10 s.toList 0)
  else none

theorem number?_repr (n : Nat) : number? n.repr = some n := by
  have htext : n.repr.toList = Nat.toDigits 10 n := Nat.toList_repr
  have hdigits : (Nat.toDigits 10 n).all Char.isDigit := by
    rw [List.all_eq_true]
    intro c hc
    exact Nat.isDigit_of_mem_toDigits (by decide) (by decide) hc
  rw [number?, htext, if_pos ⟨Nat.toDigits_ne_nil, hdigits⟩,
    Nat.ofDigitChars_ten_toDigits]

/-- Reads the connective of a gate, and says what is inside. -/
def GateKind.ofElement? (e : Element) : Option (GateKind × List Element) :=
  if e.name = "atleast" then do
    let (k, children) ← e.value? "atleast" "min"
    return (.atLeast (← number? k), children)
  else if e.name = "and" then do
    let ([], children) ← e.inside? "and" | none
    return (.and, children)
  else do
    let ([], children) ← e.inside? "or" | none
    return (.or, children)

theorem GateKind.ofElement?_nodeOrEmpty (k : GateKind)
    (children : List Element) :
    ofElement? (.nodeOrEmpty k.element k.attributes children)
      = some (k, children) := by
  cases k with
  | or =>
      simp [ofElement?, name_nodeOrEmpty, element, attributes,
        Element.inside?_nodeOrEmpty]
  | and =>
      simp [ofElement?, name_nodeOrEmpty, element, attributes,
        Element.inside?_nodeOrEmpty]
  | atLeast k =>
      simp [ofElement?, name_nodeOrEmpty, element, attributes,
        Element.value?_nodeOrEmpty, number?_repr]

/-- Reads a complemented event. -/
def complement? (e : Element) : Option Identifier := do
  let ([], [event]) ← e.inside? "not" | none
  nameElement? "basic-event" event

theorem complement?_not (id : Identifier) :
    complement? (.node "not" [] [nameElement "basic-event" id])
      = some id := by
  simp [complement?, Element.inside?, nameElement?_nameElement]

/-- Reads the inputs of a gate: gates, events, complemented events. -/
def inputs? (children : List Element) :
    Option (List Identifier × List Identifier × List Identifier) := do
  let (gates, left) := readRun (nameElement? "gate") children
  let (events, left) := readRun (nameElement? "basic-event") left
  let (complements, []) := readRun complement? left | none
  return (gates, events, complements)

theorem inputs?_inputElements (g : Gate) :
    inputs? g.inputElements = some (g.gates, g.events, g.complements) := by
  let events := g.events.map (nameElement "basic-event")
  let complements : List Element :=
    g.complements.map fun id => .node "not" [] [nameElement "basic-event" id]
  have hgates : readRun (nameElement? "gate") g.inputElements
      = (g.gates, events ++ complements) := by
    rw [Gate.inputElements, List.append_assoc]
    refine readRun_map (nameElement?_nameElement _) _ ?_
    intro e he
    rcases List.mem_append.mp he with he | he
    · obtain ⟨id, -, rfl⟩ := List.mem_map.mp he
      exact nameElement?_of_ne (by simp [nameElement, Element.name])
    · obtain ⟨id, -, rfl⟩ := List.mem_map.mp he
      exact nameElement?_of_ne (by simp [Element.name])
  have hevents : readRun (nameElement? "basic-event") (events ++ complements)
      = (g.events, complements) := by
    refine readRun_map (nameElement?_nameElement _) _ ?_
    intro e he
    obtain ⟨id, -, rfl⟩ := List.mem_map.mp he
    exact nameElement?_of_ne (by simp [Element.name])
  have hcomplements : readRun complement? complements = (g.complements, []) :=
    readRun_map_nil complement?_not _
  simp only [inputs?, hgates, hevents, hcomplements]
  rfl

/-- Reads a gate. -/
def Gate.ofElement? (e : Element) : Option Gate := do
  let (text, [connective]) ← e.value? "define-gate" "name" | none
  let name ← Identifier.ofText? text
  let (kind, children) ← GateKind.ofElement? connective
  let (gates, events, complements) ← inputs? children
  return ⟨name, kind, gates, events, complements⟩

theorem Gate.ofElement?_toElement (g : Gate) :
    ofElement? g.toElement = some g := by
  simp [ofElement?, toElement, Element.value?_node, Identifier.ofText?_text,
    GateKind.ofElement?_nodeOrEmpty, inputs?_inputElements]

/-- Reads a fault tree. -/
def FaultTree.ofElement? (e : Element) : Option FaultTree := do
  let (text, children) ← e.value? "define-fault-tree" "name"
  let name ← Identifier.ofText? text
  let (gates, []) := readRun Gate.ofElement? children | none
  return ⟨name, gates⟩

theorem FaultTree.ofElement?_toElement (t : FaultTree) :
    ofElement? t.toElement = some t := by
  simp [ofElement?, toElement, Element.value?_nodeOrEmpty,
    Identifier.ofText?_text, readRun_map_nil Gate.ofElement?_toElement]

/-- Reads a declared event: its label and its probability. -/
def BasicEvent.ofElement? (e : Element) : Option BasicEvent := do
  let (text, [label, float]) ← e.value? "define-basic-event" "name" | none
  let name ← Identifier.ofText? text
  let (probability, []) ← float.value? "float" "value" | none
  return ⟨name, ← label.content? "label", probability⟩

theorem BasicEvent.ofElement?_toElement (e : BasicEvent) :
    ofElement? e.toElement = some e := by
  simp [ofElement?, toElement, Element.value?_node, Element.value?_empty,
    Identifier.ofText?_text, Element.content?]

/-- Reads all declared events. -/
def ModelData.ofElement? (e : Element) : Option ModelData := do
  let ([], children) ← e.inside? "model-data" | none
  let (events, []) := readRun BasicEvent.ofElement? children | none
  return ⟨events⟩

theorem ModelData.ofElement?_toElement (d : ModelData) :
    ofElement? d.toElement = some d := by
  simp [ofElement?, toElement, Element.inside?_nodeOrEmpty,
    readRun_map_nil BasicEvent.ofElement?_toElement]

/-! ## Models -/

/-- Reads a model from the element of its document. -/
def ofElement? (root : Element) : Option Model := do
  let ([], first :: second :: rest) ← root.inside? "opsa-mef" | none
  let initiatingEvent ← InitiatingEvent.ofElement? first
  let eventTree ← EventTree.ofElement? second
  let (faultTrees, [last]) := readRun FaultTree.ofElement? rest | none
  let modelData ← ModelData.ofElement? last
  return ⟨initiatingEvent, eventTree, faultTrees, modelData⟩

theorem ofElement?_toElement (m : Model) :
    ofElement? m.toElement = some m := by
  have htrees : readRun FaultTree.ofElement?
      (m.faultTrees.map (·.toElement) ++ [m.modelData.toElement])
      = (m.faultTrees, [m.modelData.toElement]) := by
    refine readRun_map FaultTree.ofElement?_toElement _ ?_
    intro e he
    rw [List.mem_singleton.mp he]
    have hne : m.modelData.toElement.name ≠ "define-fault-tree" := by
      simp [ModelData.toElement, name_nodeOrEmpty]
    simp [FaultTree.ofElement?, Element.value?_of_ne hne]
  simp [ofElement?, toElement, Element.inside?,
    InitiatingEvent.ofElement?_toElement, EventTree.ofElement?_toElement,
    htrees, ModelData.ofElement?_toElement]

/-- Reads a model from its document. -/
def ofDocument? (text : String) : Option Model := do
  ofElement? (← readDocument text.toList)

theorem ofDocument?_render (m : Model) (indent : Nat) :
    ofDocument? (m.render indent) = some m := by
  rw [ofDocument?, readDocument_of_isDocument (isDocument_model m indent)]
  exact ofElement?_toElement m

/-- Every model is written as the declaration and one element of the shape of
    an exchange document, from which the model is read back; so models with the
    same text are the same. -/
theorem document_determines_model (indent : Nat) :
    (∀ m : Model, ∃ root, IsDocument root (m.render indent).toList ∧
      IsExchange root ∧ readDocument (m.render indent).toList = some root ∧
      ofElement? root = some m) ∧
    ∀ m m' : Model, m.render indent = m'.render indent → m = m' := by
  constructor
  · intro m
    have hdocument := isDocument_model m indent
    exact ⟨m.toElement, hdocument, isExchange_model m,
      readDocument_of_isDocument hdocument, ofElement?_toElement m⟩
  · intro m m' heq
    have hread := ofDocument?_render m indent
    rw [heq, ofDocument?_render] at hread
    exact (Option.some.inj hread).symm

end Model
end RiskExchange
