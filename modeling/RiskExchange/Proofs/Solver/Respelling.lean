import RiskExchange.Model.Assembly
import RiskExchange.Proofs.Json.NumberText
import RiskExchange.Proofs.Solver.Rearranging
import RiskExchange.Proofs.Text.Unsigned

/-! # Respelling — numbers and strings of the same digits

    An id is a number or a string, and which of the two it is makes no
    difference: a solution whose ids are all turned into strings
    (`RawId.asText`) gives the same model. The digits of a number may therefore
    be quoted or not, wherever an id stands. -/

namespace RiskExchange.Solver

open RiskExchange.Json
open RiskExchange.Text (maxWord64)

/-! ## Spellings -/

/-- The digits of an unsigned number of 64 bits are quoted, or are no longer
    quoted. -/
inductive Respelled : Tree → Tree → Prop where
  | same (t : Tree) : Respelled t t
  | quoted {n : Nat} {l : StringLiteral} (hn : n < 2 ^ 64)
      (hl : l.read = .ok (Number.natural n).text) :
      Respelled (.number (Number.natural n).spell) (.string l)
  | unquoted {n : Nat} {l : StringLiteral} (hn : n < 2 ^ 64)
      (hl : l.read = .ok (Number.natural n).text) :
      Respelled (.string l) (.number (Number.natural n).spell)

/-- A number and a string of the same digits, or any value and itself. -/
inductive Alike : Value → Value → Prop where
  | same (v : Value) : Alike v v
  | quoted {n : Nat} (hn : n < 2 ^ 64) :
      Alike (.number (.natural n)) (.string (Number.natural n).text)
  | unquoted {n : Nat} (hn : n < 2 ^ 64) :
      Alike (.string (Number.natural n).text) (.number (.natural n))

/-- Arrays of values that are alike, or any value and itself. -/
inductive AlikeItems : Value → Value → Prop where
  | same (v : Value) : AlikeItems v v
  | array {vs vs' : List Value} (h : List.Forall₂ Alike vs vs') :
      AlikeItems (.array vs) (.array vs')

variable {α : Type} {depth : Nat} {t t' : Tree} {v v' : Value}

theorem le_maxWord64 {n : Nat} (hn : n < 2 ^ 64) : n ≤ maxWord64 :=
  Nat.le_pred_of_lt hn

private theorem read_natural {n : Nat} (hn : n < 2 ^ 64) :
    (Tree.number (Number.natural n).spell).read depth
      = .ok (.number (.natural n)) := by
  rw [Tree.read, NumberLiteral.read,
    Number.ofLiteral_spell_natural (le_maxWord64 hn)]
  rfl

private theorem read_text {l : StringLiteral} {s : String}
    (hl : l.read = .ok s) : (Tree.string l).read depth = .ok (.string s) := by
  rw [Tree.read, hl]
  rfl

/-- The values of either spelling are alike. -/
theorem Respelled.read (h : Respelled t t') (hv : t.read depth = .ok v) :
    ∃ v', t'.read depth = .ok v' ∧ Alike v v' := by
  cases h with
  | same => exact ⟨v, hv, .same v⟩
  | quoted hn hl =>
      cases (read_natural hn).symm.trans hv
      exact ⟨_, read_text hl, .quoted hn⟩
  | unquoted hn hl =>
      cases (read_text hl).symm.trans hv
      exact ⟨_, read_natural hn, .unquoted hn⟩

theorem readItems_of_respelled {ts ts' : List Tree}
    (h : List.Forall₂ Respelled ts ts') {vs : List Value}
    (hvs : readItems depth ts = .ok vs) :
    ∃ vs', readItems depth ts' = .ok vs' ∧ List.Forall₂ Alike vs vs' := by
  induction h generalizing vs with
  | nil =>
      cases hvs
      exact ⟨[], rfl, .nil⟩
  | cons ht hts ih =>
      obtain ⟨v, hv, hvs⟩ := bind_eq_ok hvs
      obtain ⟨rest, hrest, hvs⟩ := bind_eq_ok hvs
      cases hvs
      obtain ⟨v', hv', halike⟩ := ht.read hv
      obtain ⟨rest', hrest', halikes⟩ := ih hrest
      refine ⟨v' :: rest', ?_, .cons halike halikes⟩
      rw [readItems, hv', ok_bind, hrest']
      rfl

/-- The elements of arrays that are read are alike. -/
theorem read_of_itemsEdit (h : ItemsEdit Respelled t t')
    (hv : t.read depth = .ok v) :
    ∃ v', t'.read depth = .ok v' ∧ AlikeItems v v' := by
  cases h with
  | same => exact ⟨v, hv, .same v⟩
  | array hts close =>
      obtain ⟨hd, rfl, vs, hvs, rfl⟩ := read_array_eq_ok hv
      obtain ⟨vs', hvs', halike⟩ := readItems_of_respelled hts hvs
      exact ⟨.array vs', read_array hd hvs', .array halike⟩

/-- A value that is judged is read first. -/
theorem judged_eq_ok {judge : Value → Except Mismatch α} {a : α} :
    Decoder.judged judge depth t = .ok a ↔
      ∃ v, t.read depth = .ok v ∧ judge v = .ok a := by
  constructor
  · intro h
    obtain ⟨v, hv, h⟩ := bind_eq_ok h
    refine ⟨v, liftFault_eq_ok.mp hv, ?_⟩
    cases hj : judge v with
    | error m =>
        rw [hj] at h
        exact nomatch h
    | ok b =>
        rw [hj] at h
        exact congrArg Except.ok (Except.ok.inj h)
  · rintro ⟨v, hv, hj⟩
    rw [Decoder.judged, Decoder.value, hv]
    simp only [liftFault, ok_bind, hj]
    rfl

theorem decoder_eq_ok {id : RawId} :
    RawId.decoder depth t = .ok id ↔
      ∃ v, t.read depth = .ok v ∧ RawId.ofJson? v = some id := by
  refine judged_eq_ok.trans (exists_congr fun v => and_congr_right fun _ => ?_)
  cases RawId.ofJson? v <;> simp

theorem inputs_eq_ok {ids : List RawId} :
    inputs depth t = .ok ids ↔
      ∃ v, t.read depth = .ok v ∧ inputsOfJson? v = some ids := by
  refine judged_eq_ok.trans (exists_congr fun v => and_congr_right fun _ => ?_)
  cases inputsOfJson? v <;> simp

/-- A decoder that reads related values alike respects changes between their
    trees. -/
theorem respects_of_values {d : Decoder α} {value? : Value → Option α}
    {view : α → α} {edit : Tree → Tree → Prop}
    {related : Value → Value → Prop} {least : Nat}
    (hd : ∀ {depth t a}, d depth t = .ok a ↔
      ∃ v, t.read depth = .ok v ∧ value? v = some a)
    (hread : ∀ {depth t t' v}, edit t t' → t.read depth = .ok v →
      ∃ v', t'.read depth = .ok v' ∧ related v v')
    (hvalue : ∀ {v v'}, related v v' →
      (value? v').map view = (value? v).map view) :
    d.Respects least edit view := by
  intro depth t t' a _ ht ha
  obtain ⟨v, hv, hvalue₁⟩ := hd.mp ha
  obtain ⟨v', hv', hrelated⟩ := hread ht hv
  have hview := hvalue hrelated
  rw [hvalue₁] at hview
  obtain ⟨a', hvalue', hview⟩ := Option.map_eq_some_iff.mp hview
  exact ⟨a', hd.mpr ⟨v', hv', hvalue'⟩, hview⟩

/-! ## Judging values that are alike -/

/-- The id as a string. -/
def RawId.asText (id : RawId) : RawId := .text id.written

theorem ofJson?_of_alike (h : Alike v v') :
    (RawId.ofJson? v').map RawId.asText
      = (RawId.ofJson? v).map RawId.asText := by
  cases h <;> rfl

/-- An element that is not `null` is an id. -/
theorem listedIds?_cons {rest : List Value} (hv : v ≠ .null) :
    listedIds? (v :: rest) = (RawId.ofJson? v).bind fun id =>
      (listedIds? rest).map (id :: ·) := by
  rw [listedIds?]
  · cases RawId.ofJson? v <;> cases listedIds? rest <;> rfl
  · exact hv

theorem listedIds?_of_alike {vs vs' : List Value}
    (h : List.Forall₂ Alike vs vs') :
    (listedIds? vs').map (·.map RawId.asText)
      = (listedIds? vs).map (·.map RawId.asText) := by
  induction h with
  | nil => rfl
  | @cons v v' vs vs' hv hvs ih =>
      -- null is passed over in a list, and it is alike to itself only
      by_cases hnull : v = .null
      · subst hnull
        cases hv
        exact ih
      · have hnull' : v' ≠ .null := by
          rintro rfl
          cases hv
          exact hnull rfl
        have hids {w : Value} {ws : List Value} (hw : w ≠ .null) :
            (listedIds? (w :: ws)).map (·.map RawId.asText)
              = ((RawId.ofJson? w).map RawId.asText).bind fun id =>
                ((listedIds? ws).map (·.map RawId.asText)).map (id :: ·) := by
          rw [listedIds?_cons hw]
          cases RawId.ofJson? w <;> cases listedIds? ws <;> rfl
        rw [hids hnull, hids hnull', ofJson?_of_alike hv, ih]

theorem inputsOfJson?_of_alikeItems (h : AlikeItems v v') :
    (inputsOfJson? v').map (·.map RawId.asText)
      = (inputsOfJson? v).map (·.map RawId.asText) := by
  cases h with
  | same => rfl
  | array h => exact listedIds?_of_alike h

/-- There are no blanks around digits. -/
theorem trim_toDigits (n : Nat) :
    Text.trim (Nat.toDigits 10 n) = Nat.toDigits 10 n :=
  Text.trim_eq_self fun _ hc =>
    Text.not_isBlank_of_isDigit (Number.isDigit_of_mem hc)

theorem termOfJson_of_alike (h : Alike v v') :
    termOfJson v' = termOfJson v := by
  have htext {n : Nat} (hn : n < 2 ^ 64) :
      termOfJson (.string (Number.natural n).text) = .ok n := by
    rw [termOfJson, Number.text, String.toList_ofList, trim_toDigits,
      Text.readUnsigned_toDigits (le_maxWord64 hn)]
  cases h with
  | same => rfl
  | quoted hn => exact htext hn
  | unquoted hn => exact (htext hn).symm

/-- Ids, gate inputs and terms are read alike in either spelling. -/
theorem leavesRead_respelled : LeavesRead Respelled RawId.asText where
  ofId _ := respects_of_values decoder_eq_ok Respelled.read ofJson?_of_alike
  ofInputs := respects_of_values inputs_eq_ok read_of_itemsEdit
    inputsOfJson?_of_alikeItems
  ofTerm _ := by
    rintro depth t t' n - ht hn
    obtain ⟨v, hv, hterm⟩ := judged_eq_ok.mp hn
    obtain ⟨v', hv', halike⟩ := ht.read hv
    rw [← termOfJson_of_alike halike] at hterm
    exact ⟨n, judged_eq_ok.mpr ⟨v', hv', hterm⟩, rfl⟩

/-! ## Models -/

section Models

open RiskExchange.Model

variable {f : RawId → RawId} (hf : ∀ id, (f id).written = id.written)

include hf

theorem nameAll_map (tag : Tag) (ids : List RawId) :
    nameAll tag (ids.map f) = nameAll tag ids := by
  rw [nameAll, List.map_map]
  exact List.map_congr_left fun id _ => congrArg (Identifier.tagged tag) (hf id)

private theorem logicOf_mapIds (h : Header) (rs : List SequenceRecord) :
    EventTree.logicOf (h.mapIds f) (rs.map (·.mapIds f))
      = EventTree.logicOf h rs := by
  rw [EventTree.logicOf, EventTree.logicOf, List.map_map]
  exact congrArg (CutSet.SequenceLogic.ofTree h.tree.name · _)
    (hf h.sequenceCount)

private theorem tagAll_map {ρ : Type} (tag : Tag) (id : ρ → RawId)
    (g : ρ → ρ) (hg : ∀ r, id (g r) = f (id r)) (rs : List ρ) :
    (rs.map g).map (fun r => Identifier.tagged tag (id r).written)
      = rs.map fun r => Identifier.tagged tag (id r).written := by
  rw [List.map_map]
  refine List.map_congr_left fun r _ => congrArg (Identifier.tagged tag) ?_
  rw [hg, hf]

theorem EventTree.build_mapIds (h : Header)
    (functionalEvents : List FunctionalEventRecord)
    (sequences : List SequenceRecord) :
    EventTree.build (h.mapIds f) (functionalEvents.map (·.mapIds f))
        (sequences.map (·.mapIds f))
      = EventTree.build h functionalEvents sequences := by
  have hevents := tagAll_map hf .functionalEvent FunctionalEventRecord.id
    (·.mapIds f) (fun _ => rfl) functionalEvents
  have hsequences := tagAll_map hf .sequence SequenceRecord.id
    (·.mapIds f) (fun _ => rfl) sequences
  rw [EventTree.build, EventTree.build, hevents, hsequences,
    logicOf_mapIds hf]
  rfl

private theorem ofRecord_mapIds (name : Identifier) (kind : GateKind)
    (r : GateRecord) :
    Gate.ofRecord name kind (r.mapIds f) = Gate.ofRecord name kind r := by
  rw [Gate.ofRecord, GateRecord.mapIds, nameAll_map hf, nameAll_map hf,
    nameAll_map hf]
  rfl

private theorem gateBuild_mapIds (name : Identifier) (r : GateRecord) :
    Gate.build name (r.mapIds f) = Gate.build name r := by
  rw [Gate.build, Gate.build]
  simp only [ofRecord_mapIds hf]
  rfl

private theorem buildGates_mapIds (tree : Identifier) (taken : List Identifier)
    (names : List Identifier) (rs : List GateRecord) :
    FaultTree.buildGates tree taken (names.zip (rs.map (·.mapIds f)))
      = FaultTree.buildGates tree taken (names.zip rs) := by
  induction rs generalizing names taken with
  | nil => rfl
  | cons r rest ih =>
      cases names with
      | nil => rfl
      | cons name names =>
          rw [List.map_cons, List.zip_cons_cons, List.zip_cons_cons,
            FaultTree.buildGates, FaultTree.buildGates, gateBuild_mapIds hf,
            ih]

private theorem gateNames_mapIds (rs : List GateRecord) :
    FaultTree.gateNames (rs.map (·.mapIds f)) = FaultTree.gateNames rs := by
  cases rs with
  | nil => rfl
  | cons r rest =>
      rw [List.map_cons, FaultTree.gateNames, FaultTree.gateNames]
      have hids : (rest.map (·.mapIds f)).map (·.id)
          = (rest.map (·.id)).map f := by
        rw [List.map_map, List.map_map]
        rfl
      rw [hids, nameAll_map hf]

theorem FaultTree.build_mapIds (r : FaultTreeRecord) :
    FaultTree.build (r.mapIds f) = FaultTree.build r := by
  rw [FaultTree.build, FaultTree.build, FaultTreeRecord.mapIds]
  dsimp only
  rw [hf, gateNames_mapIds hf, buildGates_mapIds hf]

theorem FaultTree.buildAll_mapIds (taken : List Identifier)
    (rs : List FaultTreeRecord) :
    FaultTree.buildAll taken (rs.map (·.mapIds f))
      = FaultTree.buildAll taken rs := by
  induction rs generalizing taken with
  | nil => rfl
  | cons r rest ih =>
      rw [List.map_cons, FaultTree.buildAll, FaultTree.buildAll,
        FaultTree.build_mapIds hf]
      simp only [ih]

private theorem skipNotice?_mapIds (r : EventRecord) :
    ModelData.skipNotice? (r.mapIds f) = ModelData.skipNotice? r := by
  have hprimary : isPrimary (f r.correctionGate) = isPrimary r.correctionGate := by
    rw [isPrimary, isPrimary, hf]
  rw [ModelData.skipNotice?, ModelData.skipNotice?, EventRecord.mapIds]
  simp only [hprimary, hf]

private theorem declareAll_mapIds (taken : List Identifier)
    (rs : List EventRecord) :
    ModelData.declareAll taken (rs.map (·.mapIds f))
      = ModelData.declareAll taken rs := by
  induction rs generalizing taken with
  | nil => rfl
  | cons r rest ih =>
      have hdeclare (name : Identifier) :
          ModelData.declare name (r.mapIds f) = ModelData.declare name r := by
        rw [ModelData.declare, ModelData.declare, EventRecord.mapIds]
        simp only [hf]
      have hid : (r.mapIds f).id.written = r.id.written := hf r.id
      have hskip := skipNotice?_mapIds hf r
      rw [List.map_cons]
      unfold ModelData.declareAll
      simp only [hskip, hid, hdeclare, ih]

theorem ModelData.build_mapIds (rs : List EventRecord) :
    ModelData.build (rs.map (·.mapIds f)) = ModelData.build rs := by
  rw [ModelData.build, ModelData.build, declareAll_mapIds hf]

/-- A model depends on how ids are written and on nothing else of them. -/
theorem assemble_mapIds (s : Solution) :
    assemble (s.mapIds f) = assemble s := by
  have hinitiating : InitiatingEvent.ofHeader (s.header.mapIds f)
      = InitiatingEvent.ofHeader s.header := by
    simp only [InitiatingEvent.ofHeader, Header.mapIds, TreeRecord.mapIds, hf]
  rw [assemble, assemble, Solution.mapIds]
  dsimp only
  rw [EventTree.build_mapIds hf, FaultTree.buildAll_mapIds hf,
    ModelData.build_mapIds hf, hinitiating]

end Models

/-! ## Texts -/

/-- A text that gives a solution is JSON, and however its ids and terms are
    respelled, its records are rearranged and the text is spaced, it gives a
    solution of which the same model is assembled, or none for the same
    reason. -/
theorem Solution.ofText_respelled {text : String} {s : Solution}
    (h : Solution.ofText (Text.glyphsOf text) = .ok s) :
    (∃ t, IsJson t text.toList) ∧
    ∀ (t t' : Tree) (text' : String), IsJson t text.toList →
      Relation.ReflTransGen (EnvelopeEdit Respelled) t t' →
      IsJson t' text'.toList →
      ∃ s', Solution.ofText (Text.glyphsOf text') = .ok s' ∧
        Model.assemble s' = Model.assemble s := by
  obtain ⟨t₀, ht₀, -⟩ := isJson_of_decode Solution.decoder_passes h
  refine ⟨⟨t₀, ht₀⟩, ?_⟩
  intro t t' text' ht hedit ht'
  have hs := (decode_of_isJson ht _).symm.trans h
  obtain ⟨s', hs', hview⟩ := Solution.decode_respects leavesRead_respelled
    depthLimit t t' s (by decide) hedit hs
  refine ⟨s', (decode_of_isJson ht' _).trans hs', ?_⟩
  have hwritten (id : RawId) : id.asText.written = id.written := rfl
  rw [← assemble_mapIds hwritten s', ← assemble_mapIds hwritten s]
  exact congrArg Model.assemble hview

/-- The document of the pump with five numbers quoted, or no longer quoted. -/
def respelledText : String :=
  "[[[[\"T\",\"1\"],1],[\x7b\"id\":\"5\",\"corrgate\":0,"
    ++ "\"name\":\"pump\",\"value\":\"0.5\"\x7d],"
    ++ "[[[1],[[2,\"and\",[],[\"5\"]]]]],[[1]],[[7,[\"65541\"]]]]]"

set_option maxRecDepth 4000 in
theorem isJson_respelledText : IsJson
    (pumpDocument (quoted "1") (record (pumpEvent (quoted "5") (counted 0)))
      (listed (pumpGate (listed []) (quoted "5"))) (quoted "65541"))
    respelledText.toList :=
  isJson_iff_pass.mpr ⟨rfl, rfl⟩

theorem Solution.ofText_respelled_pump :
    Solution.ofText (Text.glyphsOf pumpText) = .ok pump ∧
    ∃ s', Solution.ofText (Text.glyphsOf respelledText) = .ok s' ∧
      Model.assemble s' = Model.assemble pump := by
  obtain ⟨-, hall⟩ := Solution.ofText_respelled ofText_pumpText
  have hid : Respelled (counted 5) (quoted "5") := .quoted (by decide) rfl
  have hgate : Respelled (quoted "0") (counted 0) := .unquoted (by decide) rfl
  have hevent : EventEdit Respelled
      (record (pumpEvent (counted 5) (quoted "0")))
      (record (pumpEvent (quoted "5") (counted 0))) := by
    refine .inl (.object (.cons ?id (.cons ?corrgate ?more)) .closed)
    case id => exact .value (List.mem_cons_self ..) rfl hid
    case corrgate => exact .value (.tail _ (.head _)) rfl hgate
    case more => exact .cons (.same _) (.cons (.same _) .nil)
  have hinputs : NullableEdit Respelled (listed [counted 5])
      (listed [quoted "5"]) := .inl (.array (.cons hid .nil) .closed)
  have hinput : GateEdit Respelled
      (listed (pumpGate (listed []) (counted 5)))
      (listed (pumpGate (listed []) (quoted "5"))) :=
    .inl (.array (.keep _ (.keep _ (.keep _ (.value hinputs (.same _ _)))))
      .closed)
  have hinitiating : Respelled (counted 1) (quoted "1") :=
    .quoted (by decide) rfl
  have hterm : Respelled (counted 65541) (quoted "65541") :=
    .quoted (by decide) rfl
  have hedit := pumpDocument_edit hinitiating hevent hinput hterm
  exact ⟨ofText_pumpText, hall _ _ _ isJson_pumpText (.single hedit)
    isJson_respelledText⟩

end RiskExchange.Solver
