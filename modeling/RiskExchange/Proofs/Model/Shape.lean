import RiskExchange.Model.Markup
import RiskExchange.Proofs.Markup.Schema

/-! # Shape — the elements of an exchange document

    The schema of the model exchange format, as far as it is used: which
    elements stand inside which, in what order, and with what attributes. Every
    model obeys it (`isExchange_model`), and so it can be spelled. -/

namespace RiskExchange.Model

open RiskExchange.Markup

/-! ## The schema -/

/-- What stands inside a gate's connective: gates, events, complemented
    events. -/
def inputParticles : List Particle :=
  [.many "gate", .many "basic-event", .many "not"]

/-- The rules of the model exchange format. -/
def exchange : Schema :=
  [⟨"opsa-mef", [], .elements
      [.one ["define-initiating-event"], .one ["define-event-tree"],
        .many "define-fault-tree", .one ["model-data"]]⟩,
    ⟨"define-initiating-event", ["name", "event-tree"], .elements []⟩,
    ⟨"define-event-tree", ["name"], .elements
      [.many "define-functional-event", .many "define-sequence"]⟩,
    ⟨"define-functional-event", ["name"], .elements []⟩,
    ⟨"define-sequence", ["name"], .elements []⟩,
    ⟨"define-fault-tree", ["name"], .elements [.many "define-gate"]⟩,
    ⟨"define-gate", ["name"], .elements [.one ["or", "and", "atleast"]]⟩,
    ⟨"or", [], .elements inputParticles⟩,
    ⟨"and", [], .elements inputParticles⟩,
    ⟨"atleast", ["min"], .elements inputParticles⟩,
    ⟨"gate", ["name"], .elements []⟩,
    ⟨"basic-event", ["name"], .elements []⟩,
    ⟨"not", [], .elements [.one ["basic-event"]]⟩,
    ⟨"model-data", [], .elements [.many "define-basic-event"]⟩,
    ⟨"define-basic-event", ["name"], .elements [.one ["label"], .one ["float"]]⟩,
    ⟨"label", [], .text⟩,
    ⟨"float", ["value"], .elements []⟩]

/-- The element is a whole exchange document. -/
def IsExchange (root : Element) : Prop :=
  root.name = "opsa-mef" ∧ Conforms exchange root

theorem exchange_proper : exchange.Proper := by
  decide

/-! ## Entities -/

theorem name_nodeOrEmpty (name : String) (attributes : Attributes)
    (children : List Element) :
    (Element.nodeOrEmpty name attributes children).name = name := by
  cases children <;> rfl

/-- The element that names an entity obeys its rule. -/
theorem conforms_nameElement {element : String}
    (hr : ⟨element, ["name"], .elements []⟩ ∈ exchange) (id : Identifier) :
    Conforms exchange (nameElement element id) :=
  .empty hr rfl rfl .nil

private theorem conforms_initiatingEvent (e : InitiatingEvent) :
    Conforms exchange e.toElement :=
  .empty (r := ⟨"define-initiating-event", ["name", "event-tree"],
    .elements []⟩) (by decide) rfl rfl .nil

private theorem conforms_eventTree (t : EventTree) :
    Conforms exchange t.toElement := by
  refine .nodeOrEmpty (r := ⟨"define-event-tree", ["name"], .elements
    [.many "define-functional-event", .many "define-sequence"]⟩)
    (by decide) rfl rfl ?_ ?_
  · refine .many_map ?_ t.functionalEvents (.many_map_nil ?_ t.sequences)
    all_goals exact fun id => rfl
  · intro e he
    rcases List.mem_append.mp he with he | he
    · obtain ⟨id, -, rfl⟩ := List.mem_map.mp he
      exact conforms_nameElement (by decide) id
    · obtain ⟨id, -, rfl⟩ := List.mem_map.mp he
      exact conforms_nameElement (by decide) id

/-- A complemented event stands inside an element of its own. -/
theorem conforms_not (id : Identifier) :
    Conforms exchange (.node "not" [] [nameElement "basic-event" id]) := by
  refine .node (r := ⟨"not", [], .elements [.one ["basic-event"]]⟩)
    (by decide) rfl rfl (List.cons_ne_nil _ _) ?_ ?_
  · exact .one (List.mem_singleton.mpr rfl) .nil
  · intro e he
    rw [List.mem_singleton.mp he]
    exact conforms_nameElement (by decide) id

private theorem conforms_inputs (g : Gate) :
    Follow inputParticles (g.inputElements.map (·.name)) ∧
      ∀ e ∈ g.inputElements, Conforms exchange e := by
  constructor
  · rw [Gate.inputElements, List.append_assoc]
    refine .many_map ?_ g.gates
      (.many_map ?_ g.events (.many_map_nil ?_ g.complements))
    all_goals exact fun id => rfl
  · intro e he
    rcases List.mem_append.mp he with he | he
    · rcases List.mem_append.mp he with he | he
      · obtain ⟨id, -, rfl⟩ := List.mem_map.mp he
        exact conforms_nameElement (by decide) id
      · obtain ⟨id, -, rfl⟩ := List.mem_map.mp he
        exact conforms_nameElement (by decide) id
    · obtain ⟨id, -, rfl⟩ := List.mem_map.mp he
      exact conforms_not id

/-- The connective of a gate, which is one of three. -/
private theorem conforms_connective (g : Gate) :
    Conforms exchange
      (.nodeOrEmpty g.kind.element g.kind.attributes g.inputElements) := by
  obtain ⟨hfollow, hinputs⟩ := conforms_inputs g
  cases g.kind with
  | or =>
      exact .nodeOrEmpty (r := ⟨"or", [], .elements inputParticles⟩)
        (by decide) rfl rfl hfollow hinputs
  | and =>
      exact .nodeOrEmpty (r := ⟨"and", [], .elements inputParticles⟩)
        (by decide) rfl rfl hfollow hinputs
  | atLeast k =>
      exact .nodeOrEmpty (r := ⟨"atleast", ["min"], .elements inputParticles⟩)
        (by decide) rfl rfl hfollow hinputs

private theorem conforms_gate (g : Gate) : Conforms exchange g.toElement := by
  refine .node (r := ⟨"define-gate", ["name"], .elements
    [.one ["or", "and", "atleast"]]⟩) (by decide) rfl rfl
    (List.cons_ne_nil _ _) ?_ ?_
  · refine .one ?_ .nil
    show (Element.nodeOrEmpty ..).name ∈ ["or", "and", "atleast"]
    rw [name_nodeOrEmpty]
    cases g.kind <;> simp [GateKind.element]
  · intro e he
    rw [List.mem_singleton.mp he]
    exact conforms_connective g

private theorem conforms_faultTree (t : FaultTree) :
    Conforms exchange t.toElement := by
  refine .nodeOrEmpty (r := ⟨"define-fault-tree", ["name"], .elements
    [.many "define-gate"]⟩) (by decide) rfl rfl ?_ ?_
  · refine .many_map_nil ?_ t.gates
    exact fun g => rfl
  · intro e he
    obtain ⟨g, -, rfl⟩ := List.mem_map.mp he
    exact conforms_gate g

private theorem conforms_basicEvent (e : BasicEvent) :
    Conforms exchange e.toElement := by
  refine .node (r := ⟨"define-basic-event", ["name"], .elements
    [.one ["label"], .one ["float"]]⟩) (by decide) rfl rfl
    (List.cons_ne_nil _ _) ?_ ?_
  · exact .one (List.mem_singleton.mpr rfl)
      (.one (List.mem_singleton.mpr rfl) .nil)
  · refine List.forall_mem_cons.mpr ⟨?_, ?_⟩
    · exact .text (r := ⟨"label", [], .text⟩) (by decide) rfl rfl e.label
    · intro c hc
      rw [List.mem_singleton.mp hc]
      exact .empty (r := ⟨"float", ["value"], .elements []⟩) (by decide) rfl
        rfl .nil

private theorem conforms_modelData (d : ModelData) :
    Conforms exchange d.toElement := by
  refine .nodeOrEmpty (r := ⟨"model-data", [], .elements
    [.many "define-basic-event"]⟩) (by decide) rfl rfl ?_ ?_
  · refine .many_map_nil ?_ d.events
    exact fun e => rfl
  · intro e he
    obtain ⟨event, -, rfl⟩ := List.mem_map.mp he
    exact conforms_basicEvent event

/-! ## Models -/

/-- Every model is written as the element of an exchange document. -/
theorem isExchange_model (m : Model) : IsExchange m.toElement := by
  refine ⟨rfl, ?_⟩
  refine .node (r := ⟨"opsa-mef", [], .elements
    [.one ["define-initiating-event"], .one ["define-event-tree"],
      .many "define-fault-tree", .one ["model-data"]]⟩) (by decide) rfl rfl
    (List.cons_ne_nil _ _) ?_ ?_
  · have htree : m.eventTree.toElement.name = "define-event-tree" :=
      name_nodeOrEmpty ..
    have hdata : m.modelData.toElement.name = "model-data" :=
      name_nodeOrEmpty ..
    refine .one (List.mem_singleton.mpr rfl)
      (.one (List.mem_singleton.mpr htree) (.many_map ?_ m.faultTrees
        (.one (List.mem_singleton.mpr hdata) .nil)))
    exact fun t => name_nodeOrEmpty ..
  · refine List.forall_mem_cons.mpr ⟨conforms_initiatingEvent _, ?_⟩
    refine List.forall_mem_cons.mpr ⟨conforms_eventTree _, ?_⟩
    intro e he
    rcases List.mem_append.mp he with he | he
    · obtain ⟨t, -, rfl⟩ := List.mem_map.mp he
      exact conforms_faultTree t
    · rw [List.mem_singleton.mp he]
      exact conforms_modelData m.modelData

/-- The element of a model can be spelled. -/
theorem proper_model (m : Model) : m.toElement.Proper :=
  (isExchange_model m).2.proper exchange_proper

/-- The text of a model is a document of its element. -/
theorem isDocument_model (m : Model) (indent : Nat) :
    IsDocument m.toElement (m.render indent).toList :=
  isDocument_render (proper_model m) indent

end RiskExchange.Model
