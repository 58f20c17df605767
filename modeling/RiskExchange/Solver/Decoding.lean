import RiskExchange.Solver.Records

/-! # Decoding solver records — the JSON form of a solution

    Each record is a JSON object or an array of its fields. A list of records
    may be absent or `null`, which stands for the empty list; members with
    names that are not mentioned here are passed over. -/

namespace RiskExchange.Solver

open RiskExchange.Json

/-! ## Header -/

/-- The fields of a `TreeRecord` read so far. -/
structure TreeDraft where
  name : Option String := none
  initiatingEvent : Option RawId := none

/-- The event tree's name and initiating event. -/
def treeShape : RecordShape TreeDraft TreeRecord where
  name := "EventTreeHeader"
  fields := [
    .required "name" (·.name) (fun v d => { d with name := some v }) .string,
    .required "initevent" (·.initiatingEvent)
      (fun v d => { d with initiatingEvent := some v }) RawId.decoder]
  empty := {}
  finish d := return {
    name := ← require "name" d.name
    initiatingEvent := ← require "initevent" d.initiatingEvent }

/-- The fields of a `Header` read so far. -/
structure HeaderDraft where
  tree : Option TreeRecord := none
  sequenceCount : Option RawId := none

/-- The event tree and its sequence count. -/
def headerShape : RecordShape HeaderDraft Header where
  name := "Header"
  fields := [
    .required "eventtree" (·.tree) (fun v d => { d with tree := some v })
      treeShape.decode,
    .required "sqcount" (·.sequenceCount)
      (fun v d => { d with sequenceCount := some v }) RawId.decoder]
  empty := {}
  finish d := return {
    tree := ← require "eventtree" d.tree
    sequenceCount := ← require "sqcount" d.sequenceCount }

/-- Reads a header. -/
def Header.decoder : Decoder Header := headerShape.decode

/-! ## Events -/

/-- The fields of an `EventRecord` read so far. -/
structure EventDraft where
  id : Option RawId := none
  correctionGate : Option RawId := none
  label : Option String := none
  probability : Option RawId := none

/-- An event with its correction gate, label and probability. -/
def eventShape : RecordShape EventDraft EventRecord where
  name := "EventRecord"
  fields := [
    .required "id" (·.id) (fun v d => { d with id := some v }) RawId.decoder,
    .required "corrgate" (·.correctionGate)
      (fun v d => { d with correctionGate := some v }) RawId.decoder,
    .required "name" (·.label) (fun v d => { d with label := some v }) .string,
    .required "value" (·.probability)
      (fun v d => { d with probability := some v }) RawId.decoder]
  empty := {}
  finish d := return {
    id := ← require "id" d.id
    correctionGate := ← require "corrgate" d.correctionGate
    label := ← require "name" d.label
    probability := ← require "value" d.probability }

/-- Reads an event. -/
def EventRecord.decoder : Decoder EventRecord := eventShape.decode

/-! ## Fault trees -/

/-- The fields of a `GateRecord` read so far. -/
structure GateDraft where
  id : Option RawId := none
  kind : Option String := none
  gates : Option (List RawId) := none
  events : Option (List RawId) := none
  complements : Option (List RawId) := none

/-- A gate with its kind and inputs. -/
def gateShape : RecordShape GateDraft GateRecord where
  name := "GateRecord"
  fields := [
    .required "gateid" (·.id) (fun v d => { d with id := some v })
      RawId.decoder,
    .required "gatetype" (·.kind) (fun v d => { d with kind := some v })
      .string,
    .withDefault "gateinput" (·.gates)
      (fun v d => { d with gates := some v }) inputs,
    .withDefault "eventinput" (·.events)
      (fun v d => { d with events := some v }) inputs,
    .withDefault "compeventinput" (·.complements)
      (fun v d => { d with complements := some v }) inputs]
  empty := {}
  finish d := return {
    id := ← require "gateid" d.id
    kind := ← require "gatetype" d.kind
    gates := d.gates.getD []
    events := d.events.getD []
    complements := d.complements.getD [] }

/-- The fault tree's id, in a record of its own. -/
def faultTreeHeaderShape : RecordShape (Option RawId) RawId where
  name := "FaultTreeHeader"
  fields := [.required "ftid" (·) (fun v _ => some v) RawId.decoder]
  empty := none
  finish d := require "ftid" d

/-- The fields of a `FaultTreeRecord` read so far. -/
structure FaultTreeDraft where
  id : Option RawId := none
  gates : Option (List GateRecord) := none

/-- A fault tree with its id and gates. -/
def faultTreeShape : RecordShape FaultTreeDraft FaultTreeRecord where
  name := "FaultTreeRecord"
  fields := [
    .required "ftheader" (·.id) (fun v d => { d with id := some v })
      faultTreeHeaderShape.decode,
    .withDefault "gatelist" (·.gates) (fun v d => { d with gates := some v })
      (.listOrNull gateShape.decode)]
  empty := {}
  finish d := return {
    id := ← require "ftheader" d.id
    gates := d.gates.getD [] }

/-- Reads a fault tree. -/
def FaultTreeRecord.decoder : Decoder FaultTreeRecord := faultTreeShape.decode

/-! ## Functional events and sequences -/

/-- A functional event. -/
def functionalEventShape :
    RecordShape (Option RawId) FunctionalEventRecord where
  name := "SysGateRecord"
  fields := [.required "id" (·) (fun v _ => some v) RawId.decoder]
  empty := none
  finish d := return ⟨← require "id" d⟩

/-- Reads a functional event. -/
def FunctionalEventRecord.decoder : Decoder FunctionalEventRecord :=
  functionalEventShape.decode

/-- The fields of a `SequenceRecord` read so far. -/
structure SequenceDraft where
  id : Option RawId := none
  terms : Option (List Nat) := none

/-- A sequence with the terms of its cut sets. -/
def sequenceShape : RecordShape SequenceDraft SequenceRecord where
  name := "SequenceRecord"
  fields := [
    .required "seqid" (·.id) (fun v d => { d with id := some v })
      RawId.decoder,
    .withDefault "logiclist" (·.terms) (fun v d => { d with terms := some v })
      (.listOrNull term)]
  empty := {}
  finish d := return {
    id := ← require "seqid" d.id
    terms := d.terms.getD [] }

/-- Reads a sequence. -/
def SequenceRecord.decoder : Decoder SequenceRecord := sequenceShape.decode

/-! ## The whole solution -/

/-- The parts of a `Solution` read so far. -/
structure SolutionDraft where
  header : Option Header := none
  events : Option (List EventRecord) := none
  faultTrees : Option (List FaultTreeRecord) := none
  functionalEvents : Option (List FunctionalEventRecord) := none
  sequences : Option (List SequenceRecord) := none

/-- A header and four lists of records. -/
def solutionShape : RecordShape SolutionDraft Solution where
  name := "SolveInput"
  fields := [
    .required "header" (·.header) (fun v d => { d with header := some v })
      Header.decoder,
    .withDefault "eventlist" (·.events)
      (fun v d => { d with events := some v })
      (.listOrNull EventRecord.decoder),
    .withDefault "faulttreelist" (·.faultTrees)
      (fun v d => { d with faultTrees := some v })
      (.listOrNull FaultTreeRecord.decoder),
    .withDefault "sysgatelist" (·.functionalEvents)
      (fun v d => { d with functionalEvents := some v })
      (.listOrNull FunctionalEventRecord.decoder),
    .withDefault "sequencelist" (·.sequences)
      (fun v d => { d with sequences := some v })
      (.listOrNull SequenceRecord.decoder)]
  empty := {}
  finish d := return {
    header := ← require "header" d.header
    events := d.events.getD []
    faultTrees := d.faultTrees.getD []
    functionalEvents := d.functionalEvents.getD []
    sequences := d.sequences.getD [] }

/-- The one member of the outermost object. -/
def envelopeShape : RecordShape (Option Solution) Solution where
  name := "Envelope"
  fields := [
    .required "saphiresolveinput" (·) (fun v _ => some v) solutionShape.decode]
  empty := none
  finish d := require "saphiresolveinput" d

/-- Reads the solution that a text holds. -/
def Solution.ofText (text : List Text.Glyph) : Except Error Solution :=
  (Document.read text).decode envelopeShape.decode

end RiskExchange.Solver
