import RiskExchange.Model.Markup
import RiskExchange.Proofs.Markup.Rendering

/-! # Counts — the elements of a model's document

    Every name in a model's document can be read off its tags (`plain_model`),
    so the elements can be counted in the text. There is one for each fault
    tree, gate, basic event and sequence of the model, also for those that are
    empty (`elementCount_model`). -/

namespace RiskExchange.Model

open RiskExchange.Markup
open RiskExchange.Markup.Element

/-! ## Names that can be read off -/

private theorem plainAttributes_name (value : String) :
    PlainAttributes [("name", value)] :=
  plainAttributes_nil.cons (by decide) value

theorem plain_nameElement {element : String}
    (h : PlainChars element.toList) (id : Identifier) :
    (nameElement element id).Plain :=
  Plain.empty h (plainAttributes_name id.text)

theorem plain_initiatingEvent (e : InitiatingEvent) : e.toElement.Plain :=
  Plain.empty (by decide)
    (((plainAttributes_nil.cons (by decide) _).cons (by decide) _))

theorem plain_eventTree (t : EventTree) : t.toElement.Plain := by
  refine Plain.nodeOrEmpty (by decide) (plainAttributes_name t.name) ?_
  intro e he
  rcases List.mem_append.mp he with he | he
  · obtain ⟨id, -, rfl⟩ := List.mem_map.mp he
    exact plain_nameElement (by decide) id
  · obtain ⟨id, -, rfl⟩ := List.mem_map.mp he
    exact plain_nameElement (by decide) id

private theorem plain_kind (k : GateKind) :
    PlainChars k.element.toList ∧ PlainAttributes k.attributes := by
  cases k with
  | or => exact ⟨by decide, plainAttributes_nil⟩
  | and => exact ⟨by decide, plainAttributes_nil⟩
  | atLeast k =>
      have hname : PlainChars "atleast".toList := by decide
      exact ⟨hname, plainAttributes_nil.cons (by decide) (toString k)⟩

theorem mem_inputElements {g : Gate} {e : Element}
    (h : e ∈ g.inputElements) :
    (∃ id, e = nameElement "gate" id) ∨
    (∃ id, e = nameElement "basic-event" id) ∨
    (∃ id, e = .node "not" [] [nameElement "basic-event" id]) := by
  rcases List.mem_append.mp h with h | h
  · rcases List.mem_append.mp h with h | h
    · obtain ⟨id, -, rfl⟩ := List.mem_map.mp h
      exact .inl ⟨id, rfl⟩
    · obtain ⟨id, -, rfl⟩ := List.mem_map.mp h
      exact .inr (.inl ⟨id, rfl⟩)
  · obtain ⟨id, -, rfl⟩ := List.mem_map.mp h
    exact .inr (.inr ⟨id, rfl⟩)

theorem plain_gate (g : Gate) : g.toElement.Plain := by
  refine Plain.node (by decide) (plainAttributes_name g.name.text) ?_
  obtain ⟨hname, hattributes⟩ := plain_kind g.kind
  -- the only child is the formula, and its children are the inputs
  intro e he
  rw [List.mem_singleton.mp he]
  refine Plain.nodeOrEmpty hname hattributes ?_
  intro e he
  rcases mem_inputElements he with ⟨id, rfl⟩ | ⟨id, rfl⟩ | ⟨id, rfl⟩
  · exact plain_nameElement (by decide) id
  · exact plain_nameElement (by decide) id
  · refine Plain.node (by decide) plainAttributes_nil ?_
    intro e he
    rw [List.mem_singleton.mp he]
    exact plain_nameElement (by decide) id

theorem plain_faultTree (t : FaultTree) : t.toElement.Plain := by
  refine Plain.nodeOrEmpty (by decide) (plainAttributes_name t.name.text) ?_
  intro e he
  obtain ⟨g, -, rfl⟩ := List.mem_map.mp he
  exact plain_gate g

theorem plain_basicEvent (e : BasicEvent) : e.toElement.Plain := by
  refine Plain.node (by decide) (plainAttributes_name e.name.text) ?_
  refine List.forall_mem_cons.mpr ⟨Plain.text (by decide) e.label, ?_⟩
  intro c hc
  rw [List.mem_singleton.mp hc]
  exact Plain.empty (by decide)
    (plainAttributes_nil.cons (by decide) e.probability)

theorem plain_modelData (d : ModelData) : d.toElement.Plain := by
  refine Plain.nodeOrEmpty (by decide) plainAttributes_nil ?_
  intro e he
  obtain ⟨event, -, rfl⟩ := List.mem_map.mp he
  exact plain_basicEvent event

/-- Every name in the document of a model can be told from what follows it. -/
theorem plain_model (m : Model) : m.toElement.Plain := by
  refine Plain.node (by decide) plainAttributes_nil ?_
  refine List.forall_mem_cons.mpr ⟨plain_initiatingEvent _, ?_⟩
  refine List.forall_mem_cons.mpr ⟨plain_eventTree _, ?_⟩
  intro e he
  rcases List.mem_append.mp he with he | he
  · obtain ⟨t, -, rfl⟩ := List.mem_map.mp he
    exact plain_faultTree t
  · rw [List.mem_singleton.mp he]
    exact plain_modelData m.modelData

/-! ## Elements of a name -/

variable {counted : String} {α : Type}

private theorem sum_count {f : α → Element} {k : Nat}
    (h : ∀ x, (f x).count counted = k) (xs : List α) :
    ((xs.map f).map (count counted)).sum = xs.length * k := by
  induction xs with
  | nil => exact (Nat.zero_mul k).symm
  | cons x rest ih =>
      rw [List.map_cons, List.map_cons, List.sum_cons, ih, h,
        List.length_cons, Nat.succ_mul, Nat.add_comm]

theorem count_nameElement (element : String) (id : Identifier) :
    (nameElement element id).count counted = one element counted :=
  count_empty

theorem count_eventTree (hne : counted ≠ "") (t : EventTree) :
    t.toElement.count counted = one "define-event-tree" counted
      + (t.functionalEvents.length * one "define-functional-event" counted
        + t.sequences.length * one "define-sequence" counted) := by
  rw [EventTree.toElement, count_nodeOrEmpty hne, List.map_append,
    List.sum_append, sum_count (count_nameElement _),
    sum_count (count_nameElement _)]

/-- The names inside the element of a gate. -/
def namesInGate : List String :=
  ["or", "and", "atleast", "gate", "basic-event", "not"]

private theorem one_of_mem {name : String} (h : counted ∉ namesInGate)
    (hname : name ∈ namesInGate) : one name counted = 0 := by
  refine if_neg ?_
  rintro rfl
  exact h hname

/-- Nothing in a gate counts but the gate itself. -/
theorem count_gate (hne : counted ≠ "") (h : counted ∉ namesInGate)
    (g : Gate) : g.toElement.count counted = one "define-gate" counted := by
  have hinputs : (g.inputElements.map (count counted)).sum = 0 := by
    refine List.sum_eq_zero ?_
    intro n hn
    obtain ⟨e, he, rfl⟩ := List.mem_map.mp hn
    have hevent : one "basic-event" counted = 0 := one_of_mem h (by decide)
    rcases mem_inputElements he with ⟨id, rfl⟩ | ⟨id, rfl⟩ | ⟨id, rfl⟩
    · exact (count_nameElement _ id).trans (one_of_mem h (by decide))
    · exact (count_nameElement _ id).trans hevent
    · rw [count_node hne, List.map_singleton, List.sum_singleton,
        count_nameElement, hevent, one_of_mem h (by decide), Nat.add_zero]
  have hkind : one g.kind.element counted = 0 := by
    cases g.kind with
    | or => exact one_of_mem h (by decide)
    | and => exact one_of_mem h (by decide)
    | atLeast k =>
        have hmem : "atleast" ∈ namesInGate := by decide
        exact one_of_mem h hmem
  rw [Gate.toElement, count_node hne, List.map_singleton,
    List.sum_singleton, count_nodeOrEmpty hne, hinputs, hkind]
  rfl

theorem count_faultTree (hne : counted ≠ "") (h : counted ∉ namesInGate)
    (t : FaultTree) : t.toElement.count counted
      = one "define-fault-tree" counted
        + t.gates.length * one "define-gate" counted := by
  rw [FaultTree.toElement, count_nodeOrEmpty hne,
    sum_count (count_gate hne h)]

theorem count_basicEvent (hne : counted ≠ "") (e : BasicEvent) :
    e.toElement.count counted = one "define-basic-event" counted
      + (one "label" counted + one "float" counted) := by
  rw [BasicEvent.toElement, count_node hne, List.map_cons,
    List.map_singleton, List.sum_cons, List.sum_singleton, count_text hne,
    count_empty]

theorem count_modelData (hne : counted ≠ "") (d : ModelData) :
    d.toElement.count counted = one "model-data" counted
      + d.events.length * (one "define-basic-event" counted
        + (one "label" counted + one "float" counted)) := by
  rw [ModelData.toElement, count_nodeOrEmpty hne,
    sum_count (count_basicEvent hne)]

/-- Fault trees count with all of their gates. -/
private theorem sum_count_faultTrees (hne : counted ≠ "")
    (h : counted ∉ namesInGate) (ts : List FaultTree) :
    ((ts.map FaultTree.toElement).map (count counted)).sum
      = ts.length * one "define-fault-tree" counted
        + ts.foldr (fun t gates => t.gates.length + gates) 0
          * one "define-gate" counted := by
  induction ts with
  | nil =>
      rw [List.length_nil, List.foldr_nil, Nat.zero_mul, Nat.zero_mul]
      rfl
  | cons t rest ih =>
      rw [List.map_cons, List.map_cons, List.sum_cons, ih,
        count_faultTree hne h, List.foldr_cons, List.length_cons,
        Nat.succ_mul, Nat.add_mul]
      omega

theorem count_model (hne : counted ≠ "") (h : counted ∉ namesInGate)
    (m : Model) : m.toElement.count counted
      = one "opsa-mef" counted
        + (one "define-initiating-event" counted
          + (m.eventTree.toElement.count counted
            + (m.faultTrees.length * one "define-fault-tree" counted
                + m.gateCount * one "define-gate" counted
              + m.modelData.toElement.count counted))) := by
  rw [toElement, count_node hne, List.map_append, List.map_cons,
    List.map_cons, List.cons_append, List.cons_append, List.sum_cons,
    List.sum_cons, List.sum_append, sum_count_faultTrees hne h,
    List.map_singleton,
    List.sum_singleton, InitiatingEvent.toElement, count_empty, gateCount]

/-- The elements of a name are counted in the text of a document. -/
theorem elementCount_eq_count (m : Model) (indent : Nat)
    (hxml : counted ≠ "?xml") :
    elementCount counted (m.render indent) = m.toElement.count counted :=
  elementCount_render (plain_model m) hxml indent

/-- In the document of a model there are as many elements of each kind as the
    model has entities. -/
theorem elementCount_model (m : Model) (indent : Nat) :
    elementCount "define-fault-tree" (m.render indent)
      = m.faultTrees.length ∧
    elementCount "define-gate" (m.render indent) = m.gateCount ∧
    elementCount "define-basic-event" (m.render indent)
      = m.modelData.events.length ∧
    elementCount "define-sequence" (m.render indent)
      = m.eventTree.sequences.length := by
  refine ⟨?_, ?_, ?_, ?_⟩
  all_goals
    rw [elementCount_eq_count m indent (by decide),
      count_model (by decide) (by decide), count_eventTree (by decide),
      count_modelData (by decide)]
    simp [one]

end RiskExchange.Model
