import RiskExchange.Model.Emission
import RiskExchange.Proofs.Markup.Writing

/-! # Emission — what of a model reaches a device with limited room

    What an entity writes around its parts are the pieces of its element, in
    order, whatever they are written by (`emit_eq`). So a document is written
    in the buffers of its pieces. A device that has room for so many bytes is
    handed as many of the document, and if there are more, writing fails with
    the device's error and nothing is called any more (`emitTo_limited`). -/

namespace RiskExchange.Model

open RiskExchange.Markup

section Pieces

variable {μ : Type → Type} [Monad μ] [LawfulMonad μ] {event : Piece → μ Unit}
  {name : String} {attributes : Attributes} {es es' : List Element}
  {children children' : μ Unit}

/-! ## Elements -/

theorem emitEmpty_eq : emitEmpty event name attributes
    = (Element.empty name attributes).pieces.forM event := by
  show event (.single name attributes) = event (.single name attributes) >>= _
  exact (bind_pure_unit ..).symm

theorem forM_closing (event : Piece → μ Unit) (name : String) :
    [Piece.closing name].forM event = event (.closing name) :=
  bind_pure_unit ..

/-- The children write their pieces between the tags. -/
theorem emitElement_eq (h : children = (Element.piecesAll es).forM event) :
    emitElement event name attributes children
      = (Element.node name attributes es).pieces.forM event := by
  have hinside : (Element.piecesAll es ++ [Piece.closing name]).forM event
      = children >>= fun _ => event (.closing name) := by
    rw [h, ← forM_closing event name]
    exact List.forM_append
  show _ = event (.opening name attributes) >>= fun _ =>
    (Element.piecesAll es ++ [Piece.closing name]).forM event
  rw [hinside]
  rfl

/-- A text is written between the tags. -/
theorem emitText_eq (content : String) :
    emitElement event name [] (event (.text content))
      = (Element.text name content).pieces.forM event := by
  show _ = event (.opening name []) >>= fun _ =>
    event (.text content) >>= fun _ => [Piece.closing name].forM event
  rw [forM_closing]
  rfl

theorem emitNodeOrEmpty_eq {p : Prop} [Decidable p] (hp : p ↔ es = [])
    (h : children = (Element.piecesAll es).forM event) :
    (if p then emitEmpty event name attributes
      else emitElement event name attributes children)
      = (Element.nodeOrEmpty name attributes es).pieces.forM event := by
  cases es with
  | nil =>
      rw [if_pos (hp.mpr rfl)]
      exact emitEmpty_eq
  | cons e rest =>
      rw [if_neg fun hempty => List.cons_ne_nil _ _ (hp.mp hempty)]
      exact emitElement_eq h

theorem piecesAll_append (es es' : List Element) :
    Element.piecesAll (es ++ es')
      = Element.piecesAll es ++ Element.piecesAll es' := by
  simp only [Element.piecesAll_eq_flatMap, List.flatMap_append]

/-- What is written behind some children. -/
theorem bind_eq (h : children = (Element.piecesAll es).forM event)
    (h' : children' = (Element.piecesAll es').forM event) :
    (children >>= fun _ => children')
      = (Element.piecesAll (es ++ es')).forM event := by
  rw [piecesAll_append, h, h']
  exact List.forM_append.symm

omit [LawfulMonad μ] in
theorem child_eq {e : Element} (h : children = e.pieces.forM event) :
    children = (Element.piecesAll [e]).forM event := by
  rw [Element.piecesAll, Element.piecesAll, List.append_nil, h]

theorem forM_eq {α : Type} {f : α → μ Unit} {g : α → Element}
    (h : ∀ a, f a = (g a).pieces.forM event) (as : List α) :
    as.forM f = (Element.piecesAll (as.map g)).forM event := by
  induction as with
  | nil => rfl
  | cons a rest ih =>
      show (f a >>= fun _ => rest.forM f) = _
      rw [h, ih]
      exact List.forM_append.symm

/-! ## Entities -/

theorem emitReference_eq (id : Identifier) : emitReference event name id
    = (nameElement name id).pieces.forM event := emitEmpty_eq

theorem InitiatingEvent.emit_eq (e : InitiatingEvent) :
    e.emit event = e.toElement.pieces.forM event := emitEmpty_eq

theorem EventTree.emit_eq (t : EventTree) :
    t.emit event = t.toElement.pieces.forM event := by
  refine emitNodeOrEmpty_eq ?_ ?_
  · simp [isEmpty]
  · exact bind_eq (forM_eq emitReference_eq _) (forM_eq emitReference_eq _)

theorem Gate.emit_eq (g : Gate) :
    g.emit event = g.toElement.pieces.forM event := by
  refine emitElement_eq (child_eq (emitNodeOrEmpty_eq ?_ ?_))
  · simp [inputCount, inputElements, and_assoc]
  · rw [inputElements, List.append_assoc]
    refine bind_eq (forM_eq emitReference_eq _)
      (bind_eq (forM_eq emitReference_eq _) (forM_eq (fun id => ?_) _))
    exact emitElement_eq (child_eq (emitReference_eq id))

theorem FaultTree.emit_eq (t : FaultTree) :
    t.emit event = t.toElement.pieces.forM event := by
  refine emitNodeOrEmpty_eq ?_ ?_
  · simp [isEmpty]
  · exact forM_eq Gate.emit_eq _

theorem BasicEvent.emit_eq (e : BasicEvent) :
    e.emit event = e.toElement.pieces.forM event :=
  emitElement_eq (bind_eq (child_eq (emitText_eq e.label))
    (child_eq emitEmpty_eq))

theorem ModelData.emit_eq (d : ModelData) :
    d.emit event = d.toElement.pieces.forM event := by
  refine emitNodeOrEmpty_eq ?_ ?_
  · simp
  · exact forM_eq BasicEvent.emit_eq _

/-- A model is written as the pieces of its element are, one after the other. -/
theorem emit_eq (m : Model) : m.emit event = m.toElement.pieces.forM event := by
  show _ = (Element.node "opsa-mef" [] ([m.initiatingEvent.toElement]
    ++ ([m.eventTree.toElement] ++ (m.faultTrees.map (·.toElement)
      ++ [m.modelData.toElement])))).pieces.forM event
  refine emitElement_eq (bind_eq (child_eq m.initiatingEvent.emit_eq) ?_)
  refine bind_eq (child_eq m.eventTree.emit_eq) ?_
  exact bind_eq (forM_eq FaultTree.emit_eq _) (child_eq m.modelData.emit_eq)

end Pieces

/-! ## Documents -/

section Documents

variable {σ : Type} {dev : Device σ} {room : σ → Nat}

/-- The document of a model is written in the buffers of its pieces, and what
    the device has taken is passed on. -/
theorem emitTo_eq (m : Model) (indent : Nat) (dev : Device σ) :
    m.emitTo indent dev
      = dev.putEach (buffersFrom indent .start m.pieces) >>= fun _ =>
          dev.flush := by
  rw [← Device.document_forM, emitTo, emit_eq]
  rfl

theorem records_emitTo (m : Model) (indent : Nat) (dev : Device σ) :
    Records (m.emitTo indent dev.recorded) (m.emitTo indent dev) := by
  rw [emitTo_eq, emitTo_eq]
  exact (records_putEach _).bind fun _ _ _ => rfl

/-- The document is handed on as it is rendered. -/
theorem hands_emitTo (h : dev.Limited room) (m : Model) (indent : Nat) :
    Hands room (m.emitTo indent dev.recorded)
      (m.render indent).toUTF8.data.toList := by
  have hbytes : (m.render indent).toUTF8.data.toList
      = (buffersFrom indent .start m.pieces).flatten ++ [] := by
    rw [List.append_nil, flatten_buffersFrom]
    exact Sink.toList_toUTF8 _
  rw [hbytes, emitTo_eq]
  exact (hands_putEach h _).bind (hands_flush h)

/-- A sink is written to as its device is. -/
theorem run_emitTo_sink (m : Model) (indent : Nat) (s : Sink) :
    (m.emitTo indent Sink.device).run s = ((m.writeTo indent s).1,
      if (m.writeTo indent s).2 then .ok () else .error Sink.fullMessage) := by
  rw [emitTo_eq, ← Device.document_forM, Sink.run_document]
  rfl

/-- A device with room for so many bytes is handed as many of the document, and
    writing fails if and only if the document has more. A call that fails is
    the last, and its error is the one that is returned. -/
theorem emitTo_limited (h : dev.Limited room) (m : Model) (indent : Nat)
    (s : σ) : ∃ s' calls result,
      (m.emitTo indent dev).run s = (s', result) ∧
      (m.emitTo indent dev.recorded).run (s, []) = ((s', calls), result) ∧
      accepted calls = (m.render indent).toUTF8.data.toList.take (room s) ∧
      ((∃ e, result = .error e) ↔ room s < (m.render indent).toUTF8.size) ∧
      ∀ before c after e, calls = before ++ c :: after →
        c.error? = some e → after = [] ∧ result = .error e := by
  have hrecords := records_emitTo m indent dev s []
  have hhanded := hands_emitTo h m indent (s, [])
  rcases hrun : (m.emitTo indent dev.recorded).run (s, [])
    with ⟨⟨s', calls⟩, result⟩
  rw [hrun] at hrecords hhanded
  have hsize : (m.render indent).toUTF8.size
      = (m.render indent).toUTF8.data.toList.length :=
    Array.length_toList.symm
  rw [hsize]
  exact ⟨s', calls, result, hrecords, rfl, hhanded.accepted_eq,
    hhanded.failed_iff, fun _ _ _ _ => hhanded.last_of_error⟩

end Documents

/-- A model with nothing but its initiating event. -/
def bareModel : Model where
  initiatingEvent := ⟨.tagged .initiatingEvent "1", "T"⟩
  eventTree := ⟨"T", [], []⟩
  faultTrees := []
  modelData := ⟨[]⟩

/-- A sink that is full in the middle of a tag has the document up to there, and
    writing fails. -/
theorem emitTo_limited_bareModel :
    Sink.device.Limited Sink.room ∧
    ∃ s' calls e,
      (bareModel.emitTo 2 Sink.device).run (.ofRoom 45) = (s', .error e) ∧
      (bareModel.emitTo 2 Sink.device.recorded).run (.ofRoom 45, [])
        = ((s', calls), .error e) ∧
      accepted calls = (bareModel.render 2).toUTF8.data.toList.take 45 := by
  obtain ⟨s', calls, result, hrun, hrecorded, htaken, hfailed, -⟩ :=
    emitTo_limited Sink.limited_device bareModel 2 (.ofRoom 45)
  have hshort : 45 < (bareModel.render 2).toUTF8.size := by decide +kernel
  obtain ⟨e, rfl⟩ := hfailed.mpr hshort
  exact ⟨Sink.limited_device, s', calls, e, hrun, hrecorded, htaken⟩

end RiskExchange.Model
