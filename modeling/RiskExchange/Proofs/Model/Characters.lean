import RiskExchange.Proofs.Model.Assembled
import RiskExchange.Proofs.Model.Shape
import RiskExchange.Solver.Decoding

/-! # Characters — when the document of a model is well formed

    What is written of an assembled model always has the shape of a document,
    and thresholds and probabilities are written in characters that are
    allowed. Names and labels are written as they are, so the document is well
    formed exactly if theirs are (`wellFormed_assembled_iff`). Nothing keeps a
    solver from using others (`control_character_written`). -/

namespace RiskExchange.Model

open RiskExchange.Markup
open RiskExchange.Number (Binary64)
open RiskExchange.Journal.Noted (result_bind_ok)

/-! ## Texts that a solver chooses -/

/-- The texts hold nothing but characters that are allowed. -/
def AllAllowed (texts : List String) : Prop := ∀ s ∈ texts, Allowed s.toList

instance (texts : List String) : Decidable (AllAllowed texts) :=
  inferInstanceAs (Decidable (∀ s ∈ texts, Allowed s.toList))

variable {a b : List String} {s : String}

theorem allAllowed_append : AllAllowed (a ++ b) ↔ AllAllowed a ∧ AllAllowed b :=
  List.forall_mem_append

theorem allAllowed_cons : AllAllowed (s :: a) ↔ Allowed s.toList ∧ AllAllowed a :=
  List.forall_mem_cons

theorem allAllowed_nil : AllAllowed [] := by
  intro s hs
  exact nomatch hs

/-- Parts that are allowed one by one. -/
theorem allAllowed_flatMap {α : Type} {f g : α → List String} {as : List α}
    (h : ∀ x ∈ as, (AllAllowed (f x) ↔ AllAllowed (g x))) :
    AllAllowed (as.flatMap f) ↔ AllAllowed (as.flatMap g) := by
  induction as with
  | nil => exact Iff.rfl
  | cons x rest ih =>
      obtain ⟨hx, hrest⟩ := List.forall_mem_cons.mp h
      rw [List.flatMap_cons, List.flatMap_cons, allAllowed_append,
        allAllowed_append, hx, ih hrest]

/-- The names in a gate. -/
def Gate.texts (g : Gate) : List String :=
  (g.name :: g.gates ++ g.events ++ g.complements).map (·.text)

/-- The names in a fault tree. -/
def FaultTree.texts (t : FaultTree) : List String :=
  t.name.text :: t.gates.flatMap Gate.texts

/-- The name and the label of a declared event. -/
def BasicEvent.texts (e : BasicEvent) : List String := [e.name.text, e.label]

/-- The names and labels of a model. -/
def texts (m : Model) : List String :=
  [m.initiatingEvent.name.text, m.initiatingEvent.eventTree, m.eventTree.name]
    ++ (m.eventTree.functionalEvents ++ m.eventTree.sequences).map (·.text)
    ++ m.faultTrees.flatMap FaultTree.texts
    ++ m.modelData.events.flatMap BasicEvent.texts

/-! ## Numbers as they are written -/

private theorem allowed_toDigits (n : Nat) : Allowed (Nat.toDigits 10 n) := by
  intro c hc
  have hdigit : c.isDigit = true :=
    Nat.isDigit_of_mem_toDigits (by decide) (by decide) hc
  rw [Char.isDigit_iff_toNat] at hdigit
  have h0 : '0'.toNat = 48 := rfl
  have h9 : '9'.toNat = 57 := rfl
  simp [isXmlChar]
  omega

private theorem allowed_paddedDigits (width n : Nat) :
    Allowed (Binary64.paddedDigits width n) := by
  refine allowed_append.mpr ⟨?_, allowed_toDigits n⟩
  intro c hc
  rw [List.eq_of_mem_replicate hc]
  rfl

private theorem allowed_scientific (x : Binary64) :
    Allowed (x.scientific Probability.format).toList := by
  rw [Binary64.scientific, String.toList_ofList]
  have hdigits := allowed_paddedDigits (Probability.format.places + 1)
    (x.significant Probability.format.places).1
  simp only [allowed_append, allowed_cons]
  refine ⟨⟨⟨?_, ?_⟩, rfl, ?_⟩, rfl, ?_, allowed_paddedDigits _ _⟩
  · split_ifs
    · exact allowed_cons.mpr ⟨rfl, allowed_nil⟩
    · exact allowed_nil
  · exact fun c hc => hdigits c (List.mem_of_mem_take hc)
  · exact fun c hc => hdigits c (List.mem_of_mem_drop hc)
  · split_ifs <;> rfl

/-- Whatever a probability is read from, its spelling is allowed. -/
theorem allowed_normalize {s p : String} (h : Probability.normalize s = .ok p) :
    Allowed p.toList := by
  rw [Probability.normalize] at h
  split at h
  · rename_i hs
    rw [← Except.ok.inj h, hs, Probability.zeroLiteral]
    decide
  · split at h
    · rw [← Except.ok.inj h]
      exact allowed_scientific _
    · exact nomatch h

/-- The probabilities of declared events are spelled anew. -/
theorem ModelData.normalized_of_declareAll {taken : List Identifier}
    {records : List Solver.EventRecord} {events : List BasicEvent}
    (h : (declareAll taken records).result = .ok events) :
    ∀ e ∈ events, ∃ s, Probability.normalize s = .ok e.probability := by
  induction records generalizing taken events with
  | nil =>
      cases h
      intro e he
      exact nomatch he
  | cons r rest ih =>
      unfold declareAll at h
      cases hskip : skipNotice? r with
      | some n =>
          simp only [hskip] at h
          obtain ⟨_, -, h⟩ := result_bind_ok h
          exact ih h
      | none =>
          simp only [hskip] at h
          split at h
          · obtain ⟨_, hfail, -⟩ := result_bind_ok h
            exact nomatch hfail
          obtain ⟨event, hevent, h⟩ := result_bind_ok h
          obtain ⟨more, hmore, h⟩ := result_bind_ok h
          cases h
          refine List.forall_mem_cons.mpr
            ⟨⟨r.probability.written, ?_⟩, ih hmore⟩
          change declare _ r = .ok event at hevent
          rw [declare] at hevent
          split at hevent
          · rename_i p hp
            rw [← Except.ok.inj hevent]
            exact hp
          · exact nomatch hevent

/-- The probabilities of an assembled model are spelled anew. -/
theorem normalized_of_assemble {s : Solver.Solution} {a : Assembly}
    (h : (assemble s).result = .ok a) :
    ∀ e ∈ a.model.modelData.events,
      ∃ t, Probability.normalize t = .ok e.probability := by
  obtain ⟨⟨tree, logic⟩, -, h⟩ := result_bind_ok h
  obtain ⟨faultTrees, -, h⟩ := result_bind_ok h
  obtain ⟨modelData, hdata, h⟩ := result_bind_ok h
  obtain ⟨_, -, h⟩ := result_bind_ok h
  cases h
  obtain ⟨events, hevents, hdata⟩ := result_bind_ok hdata
  obtain ⟨_, -, hdata⟩ := result_bind_ok hdata
  cases hdata
  exact ModelData.normalized_of_declareAll hevents

/-! ## Texts in elements -/

private theorem flatMap_nameElement (element : String)
    (ids : List Identifier) :
    (ids.map (nameElement element)).flatMap Element.strings
      = ids.map (·.text) := by
  rw [List.flatMap_map]
  exact List.map_eq_flatMap.symm

private theorem strings_eventTree (t : EventTree) :
    t.toElement.strings = t.name
      :: (t.functionalEvents ++ t.sequences).map (·.text) := by
  rw [EventTree.toElement, Element.strings_nodeOrEmpty, List.flatMap_append,
    flatMap_nameElement, flatMap_nameElement, List.map_append]
  rfl

private theorem allAllowed_gate (g : Gate) :
    AllAllowed g.toElement.strings ↔ AllAllowed g.texts := by
  have hkind : AllAllowed (g.kind.attributes.map (·.2)) := by
    cases g.kind with
    | or => exact allAllowed_nil
    | and => exact allAllowed_nil
    | atLeast k =>
        refine allAllowed_cons.mpr ⟨?_, allAllowed_nil⟩
        rw [Nat.toString_eq_repr, Nat.toList_repr]
        exact allowed_toDigits k
  have hinputs : g.inputElements.flatMap Element.strings
      = (g.gates ++ g.events ++ g.complements).map (·.text) := by
    have hnot : (g.complements.map fun id =>
        Element.node "not" [] [nameElement "basic-event" id]).flatMap
          Element.strings = g.complements.map (·.text) := by
      rw [List.flatMap_map]
      exact List.map_eq_flatMap.symm
    rw [Gate.inputElements, List.flatMap_append, List.flatMap_append,
      flatMap_nameElement, flatMap_nameElement, hnot, List.map_append,
      List.map_append]
  rw [Gate.toElement, Element.strings_node, List.flatMap_singleton,
    Element.strings_nodeOrEmpty, hinputs, Gate.texts, List.cons_append,
    List.cons_append, List.map_cons]
  simp only [allAllowed_append, allAllowed_cons, hkind, List.map_nil,
    List.map_cons, allAllowed_nil, and_true, true_and]

private theorem allAllowed_faultTree (t : FaultTree) :
    AllAllowed t.toElement.strings ↔ AllAllowed t.texts := by
  rw [FaultTree.toElement, Element.strings_nodeOrEmpty, List.flatMap_map,
    FaultTree.texts, List.map_cons, List.map_nil, List.singleton_append,
    allAllowed_cons, allAllowed_cons,
    allAllowed_flatMap fun g _ => allAllowed_gate g]

private theorem allAllowed_basicEvent {e : BasicEvent}
    (h : Allowed e.probability.toList) :
    AllAllowed e.toElement.strings ↔ AllAllowed e.texts := by
  have hstrings : e.toElement.strings
      = [e.name.text, e.label, e.probability] := rfl
  rw [hstrings, BasicEvent.texts]
  simp only [allAllowed_cons, allAllowed_nil, h, and_true]

/-! ## Models -/

/-- The document of an assembled model is one element behind a declaration,
    with every tag closed in order and every mark escaped. It is well formed if
    and only if the names and labels of the model hold nothing but characters
    that may stand in a document. -/
theorem wellFormed_assembled_iff {s : Solver.Solution} {a : Assembly}
    (h : (assemble s).result = .ok a) (indent : Nat) :
    IsDocument a.model.toElement (a.model.render indent).toList ∧
    (WellFormed (a.model.render indent).toList
      ↔ ∀ t ∈ a.model.texts, ∀ c ∈ t.toList, isXmlChar c = true) := by
  refine ⟨isDocument_model a.model indent, ?_⟩
  have hevents : ∀ e ∈ a.model.modelData.events,
      Allowed e.probability.toList := by
    intro e he
    obtain ⟨t, ht⟩ := normalized_of_assemble h e he
    exact allowed_normalize ht
  refine (wellFormed_render_iff (proper_model a.model) indent).trans ?_
  change AllAllowed a.model.toElement.strings ↔ AllAllowed a.model.texts
  have htrees : AllAllowed (a.model.faultTrees.flatMap (·.toElement.strings))
      ↔ AllAllowed (a.model.faultTrees.flatMap (·.texts)) :=
    allAllowed_flatMap fun t _ => allAllowed_faultTree t
  have hdata := allAllowed_flatMap fun e he =>
    allAllowed_basicEvent (hevents e he)
  have hinit : a.model.initiatingEvent.toElement.strings
      = [a.model.initiatingEvent.name.text,
          a.model.initiatingEvent.eventTree] := rfl
  rw [toElement, Element.strings_node, texts, List.flatMap_append,
    List.flatMap_cons, List.flatMap_cons, hinit, strings_eventTree,
    List.flatMap_map, List.flatMap_singleton, ModelData.toElement,
    Element.strings_nodeOrEmpty, List.flatMap_map]
  simp only [allAllowed_append, allAllowed_cons, htrees, hdata, List.map_nil,
    allAllowed_nil, true_and, and_true, and_assoc, List.map_append]

/-- A solution with one declared event, which is labelled as given. -/
def oneEvent (label : String) : Solver.Solution where
  header := ⟨⟨"T", .number (.natural 1)⟩, .number (.natural 0)⟩
  events := [⟨.number (.natural 1), .number (.natural 0), label,
    .number (.natural 0)⟩]
  faultTrees := []
  functionalEvents := []
  sequences := []

/-- What is assembled of it. -/
def oneEventAssembly (label : String) : Assembly where
  model :=
    { initiatingEvent := ⟨.tagged .initiatingEvent "1", "T"⟩
      eventTree := ⟨"T", [], []⟩
      faultTrees := []
      modelData := ⟨[⟨.tagged .basicEvent "1", label, "0.000000E+00"⟩]⟩ }
  logic := .ofTree "T" "0" []

theorem wellFormed_assembled_iff_oneEvent :
    (assemble (oneEvent "a < b")).result = .ok (oneEventAssembly "a < b") ∧
    WellFormed ((oneEventAssembly "a < b").model.render 2).toList := by
  have h : (assemble (oneEvent "a < b")).result
      = .ok (oneEventAssembly "a < b") := by
    decide +kernel
  have hall : AllAllowed (oneEventAssembly "a < b").model.texts := by
    decide +kernel
  exact ⟨h, (wellFormed_assembled_iff h 2).2.mpr hall⟩

/-- A label with a control character is accepted, and written as it is. -/
theorem control_character_written :
    Solver.Solution.ofText (Text.glyphsOf
        "[[[[\"T\",1],0],[[1,0,\"\\u0001\",0]]]]")
      = .ok (oneEvent "\x01") ∧
    (assemble (oneEvent "\x01")).result = .ok (oneEventAssembly "\x01") ∧
    ¬ WellFormed ((oneEventAssembly "\x01").model.render 0).toList := by
  refine ⟨by decide +kernel, by decide +kernel, ?_⟩
  intro h
  have hall := (wellFormed_render_iff (proper_model _) 0).mp h
  have hlabel : "\x01" ∈ (oneEventAssembly "\x01").model.toElement.strings := by
    decide +kernel
  have hmem : '\x01' ∈ "\x01".toList := by
    decide
  exact nomatch hall _ hlabel _ hmem

end RiskExchange.Model
