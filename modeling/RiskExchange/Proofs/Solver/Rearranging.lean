import RiskExchange.Proofs.Json.Rearranging
import RiskExchange.Solver.Decoding

/-! # Rearranging — what is written of a solution but means nothing

    The records of a solution may be rearranged at every depth, and the ids in
    them may be written in another way (`SolutionEdit`). What is read is the
    same then, up to the way in which ids are written
    (`Solution.decode_respects`). -/

namespace RiskExchange.Solver

open RiskExchange.Json

/-! ## Changes -/

section Edits

-- the changes of a single id, gate input or term
variable (leaf : Tree → Tree → Prop)

/-- Changes of the event tree. -/
def TreeEdit : Tree → Tree → Prop :=
  RecordEdit [⟨"name", Eq⟩, ⟨"initevent", leaf⟩] []

/-- Changes of a header. -/
def HeaderEdit : Tree → Tree → Prop :=
  RecordEdit [⟨"eventtree", TreeEdit leaf⟩, ⟨"sqcount", leaf⟩] []

/-- Changes of an event. -/
def EventEdit : Tree → Tree → Prop :=
  RecordEdit
    [⟨"id", leaf⟩, ⟨"corrgate", leaf⟩, ⟨"name", Eq⟩, ⟨"value", leaf⟩] []

/-- Changes of a gate. -/
def GateEdit : Tree → Tree → Prop :=
  RecordEdit
    [⟨"gateid", leaf⟩, ⟨"gatetype", Eq⟩, ⟨"gateinput", NullableEdit leaf⟩,
      ⟨"eventinput", NullableEdit leaf⟩,
      ⟨"compeventinput", NullableEdit leaf⟩]
    ["gateinput", "eventinput", "compeventinput"]

/-- Changes of the record that holds a fault tree's id. -/
def FaultTreeHeaderEdit : Tree → Tree → Prop := RecordEdit [⟨"ftid", leaf⟩] []

/-- Changes of a fault tree. -/
def FaultTreeEdit : Tree → Tree → Prop :=
  RecordEdit
    [⟨"ftheader", FaultTreeHeaderEdit leaf⟩,
      ⟨"gatelist", NullableEdit (GateEdit leaf)⟩]
    ["gatelist"]

/-- Changes of a functional event. -/
def FunctionalEventEdit : Tree → Tree → Prop := RecordEdit [⟨"id", leaf⟩] []

/-- Changes of a sequence. -/
def SequenceEdit : Tree → Tree → Prop :=
  RecordEdit [⟨"seqid", leaf⟩, ⟨"logiclist", NullableEdit leaf⟩]
    ["logiclist"]

/-- Changes of a solution. -/
def SolutionEdit : Tree → Tree → Prop :=
  RecordEdit
    [⟨"header", HeaderEdit leaf⟩,
      ⟨"eventlist", NullableEdit (EventEdit leaf)⟩,
      ⟨"faulttreelist", NullableEdit (FaultTreeEdit leaf)⟩,
      ⟨"sysgatelist", NullableEdit (FunctionalEventEdit leaf)⟩,
      ⟨"sequencelist", NullableEdit (SequenceEdit leaf)⟩]
    ["eventlist", "faulttreelist", "sysgatelist", "sequencelist"]

/-- Changes of a whole document. -/
def EnvelopeEdit : Tree → Tree → Prop :=
  RecordEdit [⟨"saphiresolveinput", SolutionEdit leaf⟩] []

end Edits

/-! ## Ids in records -/

section Records

variable (f : RawId → RawId)

/-- The event tree with its id replaced. -/
def TreeRecord.mapIds (r : TreeRecord) : TreeRecord :=
  { r with initiatingEvent := f r.initiatingEvent }

/-- The header with its ids replaced. -/
def Header.mapIds (r : Header) : Header where
  tree := r.tree.mapIds f
  sequenceCount := f r.sequenceCount

/-- The event with its ids replaced. -/
def EventRecord.mapIds (r : EventRecord) : EventRecord where
  id := f r.id
  correctionGate := f r.correctionGate
  label := r.label
  probability := f r.probability

/-- The gate with its ids replaced. -/
def GateRecord.mapIds (r : GateRecord) : GateRecord where
  id := f r.id
  kind := r.kind
  gates := r.gates.map f
  events := r.events.map f
  complements := r.complements.map f

/-- The fault tree with its ids replaced. -/
def FaultTreeRecord.mapIds (r : FaultTreeRecord) : FaultTreeRecord where
  id := f r.id
  gates := r.gates.map (·.mapIds f)

/-- The functional event with its id replaced. -/
def FunctionalEventRecord.mapIds (r : FunctionalEventRecord) :
    FunctionalEventRecord := ⟨f r.id⟩

/-- The sequence with its id replaced. -/
def SequenceRecord.mapIds (r : SequenceRecord) : SequenceRecord :=
  { r with id := f r.id }

/-- The solution with all ids replaced. -/
def Solution.mapIds (r : Solution) : Solution where
  header := r.header.mapIds f
  events := r.events.map (·.mapIds f)
  faultTrees := r.faultTrees.map (·.mapIds f)
  functionalEvents := r.functionalEvents.map (·.mapIds f)
  sequences := r.sequences.map (·.mapIds f)

end Records

/-- Ids that are replaced by themselves. -/
theorem Solution.mapIds_id (r : Solution) : r.mapIds id = r := by
  have hgate (r : GateRecord) : r.mapIds id = r := by
    simp [GateRecord.mapIds]
  have htree (r : FaultTreeRecord) : r.mapIds id = r := by
    simp [FaultTreeRecord.mapIds, hgate]
  have hevent (r : EventRecord) : r.mapIds id = r := rfl
  have hfunctional (r : FunctionalEventRecord) : r.mapIds id = r := rfl
  have hsequence (r : SequenceRecord) : r.mapIds id = r := rfl
  have hheader (r : Header) : r.mapIds id = r := rfl
  simp [Solution.mapIds, htree, hevent, hfunctional, hsequence, hheader]

/-- Changes of single ids, gate inputs and terms that are not seen when ids are
    viewed through `f`. -/
structure LeavesRead (leaf : Tree → Tree → Prop) (f : RawId → RawId) :
    Prop where
  ofId (least : Nat) : RawId.decoder.Respects least leaf f
  ofInputs : inputs.Respects 2 (ItemsEdit leaf) (List.map f)
  ofTerm (least : Nat) : term.Respects least leaf id

/-- Nothing need be changed in an id. -/
theorem leavesRead_eq : LeavesRead Eq id where
  ofId least := Decoder.respects_eq _ least id
  ofInputs := by
    rintro depth t t' ids - ht hids
    cases ht with
    | same => exact ⟨ids, hids, rfl⟩
    | array h close =>
        rw [List.forall₂_eq_eq_eq] at h
        subst h
        exact ⟨ids, hids, rfl⟩
  ofTerm least := Decoder.respects_eq _ least id

variable {leaf : Tree → Tree → Prop} {f : RawId → RawId}

/-! ## Header

    A record needs one level of nesting more than the deepest of its fields, so
    the levels that `Respects` asks for grow from here to the envelope. -/

private theorem treeShape_lawful : treeShape.Lawful [] where
  fills := by simp [treeShape, Field.required, Field.fills_make]
  apart := by simp [treeShape, Field.required, Field.apart_make]
  empty := by simp [treeShape, Field.required, Field.make]
  names := List.nil_subset _
  leavesOut _ _ h := nomatch h

private theorem treeShape_follows (h : LeavesRead leaf f) (least : Nat) :
    treeShape.Follows [⟨"name", Eq⟩, ⟨"initevent", leaf⟩] least
      (fun d => { d with initiatingEvent := d.initiatingEvent.map f })
      (·.mapIds f) where
  names := by simp
  fields := .cons
    (Field.follows_make (Decoder.respects_eq _ _ id) (fun _ => rfl)
      fun _ _ => rfl) <| .cons
    (Field.follows_make (h.ofId least) (fun _ => Option.isSome_map)
      fun _ _ => rfl) .nil
  finish := by rintro ⟨_ | _, _ | _⟩ <;> rfl

private theorem headerShape_lawful : headerShape.Lawful [] where
  fills := by simp [headerShape, Field.required, Field.fills_make]
  apart := by simp [headerShape, Field.required, Field.apart_make]
  empty := by simp [headerShape, Field.required, Field.make]
  names := List.nil_subset _
  leavesOut _ _ h := nomatch h

private theorem headerShape_follows (h : LeavesRead leaf f) :
    headerShape.Follows [⟨"eventtree", TreeEdit leaf⟩, ⟨"sqcount", leaf⟩] 3
      (fun d => {
        tree := d.tree.map (·.mapIds f)
        sequenceCount := d.sequenceCount.map f })
      (·.mapIds f) where
  names := by simp
  fields := .cons
    (Field.follows_make
      (treeShape_lawful.respects (treeShape_follows h 2) (Nat.le_refl 2))
      (fun _ => Option.isSome_map) fun _ _ => rfl) <| .cons
    (Field.follows_make (h.ofId 3) (fun _ => Option.isSome_map)
      fun _ _ => rfl) .nil
  finish := by rintro ⟨_ | _, _ | _⟩ <;> rfl

theorem Header.decoder_respects (h : LeavesRead leaf f) :
    Header.decoder.Respects 4 (HeaderEdit leaf) (·.mapIds f) :=
  headerShape_lawful.respects (headerShape_follows h) (by decide)

/-! ## Events -/

private theorem eventShape_lawful : eventShape.Lawful [] where
  fills := by simp [eventShape, Field.required, Field.fills_make]
  apart := by simp [eventShape, Field.required, Field.apart_make]
  empty := by simp [eventShape, Field.required, Field.make]
  names := List.nil_subset _
  leavesOut _ _ h := nomatch h

private theorem eventShape_follows (h : LeavesRead leaf f) :
    eventShape.Follows
      [⟨"id", leaf⟩, ⟨"corrgate", leaf⟩, ⟨"name", Eq⟩, ⟨"value", leaf⟩] 2
      (fun d => {
        id := d.id.map f
        correctionGate := d.correctionGate.map f
        label := d.label
        probability := d.probability.map f })
      (·.mapIds f) where
  names := by simp
  fields := .cons
    (Field.follows_make (h.ofId 2) (fun _ => Option.isSome_map)
      fun _ _ => rfl) <| .cons
    (Field.follows_make (h.ofId 2) (fun _ => Option.isSome_map)
      fun _ _ => rfl) <| .cons
    (Field.follows_make (Decoder.respects_eq _ 2 id) (fun _ => rfl)
      fun _ _ => rfl) <| .cons
    (Field.follows_make (h.ofId 2) (fun _ => Option.isSome_map)
      fun _ _ => rfl) .nil
  finish := by rintro ⟨_ | _, _ | _, _ | _, _ | _⟩ <;> rfl

theorem EventRecord.decoder_respects (h : LeavesRead leaf f) :
    EventRecord.decoder.Respects 3 (EventEdit leaf) (·.mapIds f) :=
  eventShape_lawful.respects (eventShape_follows h) (Nat.le_refl 2)

/-! ## Fault trees -/

theorem inputs_of_isNone {depth : Nat} {t : Tree} (hdepth : 2 ≤ depth)
    (ht : IsNone t) : inputs depth t = .ok [] := by
  cases ht with
  | null => rfl
  | empty =>
      rw [inputs, Decoder.judged, Decoder.value, read_array hdepth rfl]
      rfl

private theorem gateShape_lawful :
    gateShape.Lawful ["gateinput", "eventinput", "compeventinput"] where
  fills := by
    simp [gateShape, Field.required, Field.withDefault, Field.fills_make]
  apart := by
    simp [gateShape, Field.required, Field.withDefault, Field.apart_make]
  empty := by simp [gateShape, Field.required, Field.withDefault, Field.make]
  names := by simp [gateShape, Field.required, Field.withDefault, Field.make]
  leavesOut := by
    simp only [gateShape, List.forall_mem_cons, List.not_mem_nil,
      false_implies, implies_true, and_true]
    refine ⟨?id, ?kind, fun _ => ?gates, fun _ => ?events,
      fun _ => ?complements⟩
    case id | kind => simp [Field.required, Field.make]
    all_goals
      refine RecordShape.leavesOut_make (fun _ _ => inputs_of_isNone) ?_
      rintro ⟨⟩ ⟨⟩
      rfl

private theorem gateShape_follows (h : LeavesRead leaf f) :
    gateShape.Follows
      [⟨"gateid", leaf⟩, ⟨"gatetype", Eq⟩, ⟨"gateinput", NullableEdit leaf⟩,
        ⟨"eventinput", NullableEdit leaf⟩,
        ⟨"compeventinput", NullableEdit leaf⟩] 2
      (fun d => {
        id := d.id.map f
        kind := d.kind
        gates := d.gates.map (·.map f)
        events := d.events.map (·.map f)
        complements := d.complements.map (·.map f) })
      (·.mapIds f) where
  names := by simp
  fields := by
    have hinputs : inputs.Respects 2 (NullableEdit leaf) (List.map f) :=
      h.ofInputs.nullable (fun _ _ => inputs_of_isNone) (Nat.le_refl 2)
    exact .cons
      (Field.follows_make (h.ofId 2) (fun _ => Option.isSome_map)
        fun _ _ => rfl) <| .cons
      (Field.follows_make (Decoder.respects_eq _ 2 id) (fun _ => rfl)
        fun _ _ => rfl) <| .cons
      (Field.follows_make hinputs (fun _ => Option.isSome_map)
        fun _ _ => rfl) <| .cons
      (Field.follows_make hinputs (fun _ => Option.isSome_map)
        fun _ _ => rfl) <| .cons
      (Field.follows_make hinputs (fun _ => Option.isSome_map)
        fun _ _ => rfl) .nil
  finish := by rintro ⟨_ | _, _ | _, _ | _, _ | _, _ | _⟩ <;> rfl

private theorem faultTreeHeaderShape_lawful :
    faultTreeHeaderShape.Lawful [] where
  fills := by simp [faultTreeHeaderShape, Field.required, Field.fills_make]
  apart := by simp [faultTreeHeaderShape]
  empty := by simp [faultTreeHeaderShape, Field.required, Field.make]
  names := List.nil_subset _
  leavesOut _ _ h := nomatch h

private theorem faultTreeHeaderShape_follows (h : LeavesRead leaf f) :
    faultTreeHeaderShape.Follows [⟨"ftid", leaf⟩] 2 (Option.map f) f where
  names := by simp
  fields := .cons
    (Field.follows_make (h.ofId 2) (fun _ => Option.isSome_map)
      fun _ _ => rfl) .nil
  finish := by rintro (_ | _) <;> rfl

private theorem faultTreeShape_lawful :
    faultTreeShape.Lawful ["gatelist"] where
  fills := by
    simp [faultTreeShape, Field.required, Field.withDefault, Field.fills_make]
  apart := by
    simp [faultTreeShape, Field.required, Field.withDefault, Field.apart_make]
  empty := by
    simp [faultTreeShape, Field.required, Field.withDefault, Field.make]
  names := by
    simp [faultTreeShape, Field.required, Field.withDefault, Field.make]
  leavesOut := by
    simp only [faultTreeShape, List.forall_mem_cons, List.not_mem_nil,
      false_implies, implies_true, and_true]
    refine ⟨?id, fun _ => ?gates⟩
    case id => simp [Field.required, Field.make]
    case gates =>
      refine RecordShape.leavesOut_make
        (fun _ _ => Decoder.listOrNull_of_isNone _) ?_
      rintro ⟨⟩ ⟨⟩
      rfl

private theorem faultTreeShape_follows (h : LeavesRead leaf f) :
    faultTreeShape.Follows
      [⟨"ftheader", FaultTreeHeaderEdit leaf⟩,
        ⟨"gatelist", NullableEdit (GateEdit leaf)⟩] 4
      (fun d => {
        id := d.id.map f
        gates := d.gates.map (·.map (·.mapIds f)) })
      (·.mapIds f) where
  names := by simp
  fields := by
    have hheader := faultTreeHeaderShape_lawful.respects
      (faultTreeHeaderShape_follows h) (Nat.le_refl 2)
    have hgate := gateShape_lawful.respects (gateShape_follows h)
      (Nat.le_refl 2)
    have hgates := hgate.listOrNull.nullable
      (fun _ _ => Decoder.listOrNull_of_isNone _) (by decide)
    exact .cons
      (Field.follows_make (hheader.mono (by decide))
        (fun _ => Option.isSome_map) fun _ _ => rfl) <| .cons
      (Field.follows_make hgates (fun _ => Option.isSome_map)
        fun _ _ => rfl) .nil
  finish := by rintro ⟨_ | _, _ | _⟩ <;> rfl

theorem FaultTreeRecord.decoder_respects (h : LeavesRead leaf f) :
    FaultTreeRecord.decoder.Respects 5 (FaultTreeEdit leaf) (·.mapIds f) :=
  faultTreeShape_lawful.respects (faultTreeShape_follows h) (by decide)

/-! ## Functional events and sequences -/

private theorem functionalEventShape_lawful :
    functionalEventShape.Lawful [] where
  fills := by simp [functionalEventShape, Field.required, Field.fills_make]
  apart := by simp [functionalEventShape]
  empty := by simp [functionalEventShape, Field.required, Field.make]
  names := List.nil_subset _
  leavesOut _ _ h := nomatch h

private theorem functionalEventShape_follows (h : LeavesRead leaf f) :
    functionalEventShape.Follows [⟨"id", leaf⟩] 2 (Option.map f)
      (·.mapIds f) where
  names := by simp
  fields := .cons
    (Field.follows_make (h.ofId 2) (fun _ => Option.isSome_map)
      fun _ _ => rfl) .nil
  finish := by rintro (_ | _) <;> rfl

theorem FunctionalEventRecord.decoder_respects (h : LeavesRead leaf f) :
    FunctionalEventRecord.decoder.Respects 3 (FunctionalEventEdit leaf)
      (·.mapIds f) :=
  functionalEventShape_lawful.respects (functionalEventShape_follows h)
    (Nat.le_refl 2)

private theorem sequenceShape_lawful :
    sequenceShape.Lawful ["logiclist"] where
  fills := by
    simp [sequenceShape, Field.required, Field.withDefault, Field.fills_make]
  apart := by
    simp [sequenceShape, Field.required, Field.withDefault, Field.apart_make]
  empty := by
    simp [sequenceShape, Field.required, Field.withDefault, Field.make]
  names := by
    simp [sequenceShape, Field.required, Field.withDefault, Field.make]
  leavesOut := by
    simp only [sequenceShape, List.forall_mem_cons, List.not_mem_nil,
      false_implies, implies_true, and_true]
    refine ⟨?id, fun _ => ?terms⟩
    case id => simp [Field.required, Field.make]
    case terms =>
      refine RecordShape.leavesOut_make
        (fun _ _ => Decoder.listOrNull_of_isNone _) ?_
      rintro ⟨⟩ ⟨⟩
      rfl

private theorem sequenceShape_follows (h : LeavesRead leaf f) :
    sequenceShape.Follows
      [⟨"seqid", leaf⟩, ⟨"logiclist", NullableEdit leaf⟩] 2
      (fun d => { d with id := d.id.map f }) (·.mapIds f) where
  names := by simp
  fields := by
    have hterms := (h.ofTerm 1).listOrNull.nullable
      (fun _ _ => Decoder.listOrNull_of_isNone _) (Nat.le_refl 2)
    rw [List.map_id_fun] at hterms
    exact .cons
      (Field.follows_make (h.ofId 2) (fun _ => Option.isSome_map)
        fun _ _ => rfl) <| .cons
      (Field.follows_make hterms (fun _ => rfl) fun _ _ => rfl) .nil
  finish := by rintro ⟨_ | _, _ | _⟩ <;> rfl

theorem SequenceRecord.decoder_respects (h : LeavesRead leaf f) :
    SequenceRecord.decoder.Respects 3 (SequenceEdit leaf) (·.mapIds f) :=
  sequenceShape_lawful.respects (sequenceShape_follows h) (Nat.le_refl 2)

/-! ## The whole solution -/

private theorem solutionShape_lawful : solutionShape.Lawful
    ["eventlist", "faulttreelist", "sysgatelist", "sequencelist"] where
  fills := by
    simp [solutionShape, Field.required, Field.withDefault, Field.fills_make]
  apart := by
    simp [solutionShape, Field.required, Field.withDefault, Field.apart_make]
  empty := by
    simp [solutionShape, Field.required, Field.withDefault, Field.make]
  names := by
    simp [solutionShape, Field.required, Field.withDefault, Field.make]
  leavesOut := by
    simp only [solutionShape, List.forall_mem_cons, List.not_mem_nil,
      false_implies, implies_true, and_true]
    refine ⟨?header, fun _ => ?events, fun _ => ?faultTrees,
      fun _ => ?functionalEvents, fun _ => ?sequences⟩
    case header => simp [Field.required, Field.make]
    all_goals
      refine RecordShape.leavesOut_make
        (fun _ _ => Decoder.listOrNull_of_isNone _) ?_
      rintro ⟨⟩ ⟨⟩
      rfl

private theorem solutionShape_follows (h : LeavesRead leaf f) :
    solutionShape.Follows
      [⟨"header", HeaderEdit leaf⟩,
        ⟨"eventlist", NullableEdit (EventEdit leaf)⟩,
        ⟨"faulttreelist", NullableEdit (FaultTreeEdit leaf)⟩,
        ⟨"sysgatelist", NullableEdit (FunctionalEventEdit leaf)⟩,
        ⟨"sequencelist", NullableEdit (SequenceEdit leaf)⟩] 6
      (fun d => {
        header := d.header.map (·.mapIds f)
        events := d.events.map (·.map (·.mapIds f))
        faultTrees := d.faultTrees.map (·.map (·.mapIds f))
        functionalEvents := d.functionalEvents.map (·.map (·.mapIds f))
        sequences := d.sequences.map (·.map (·.mapIds f)) })
      (·.mapIds f) where
  names := by simp
  fields := by
    have hlist {α : Type} {d : Decoder α} {least : Nat}
        {edit : Tree → Tree → Prop} {view : α → α}
        (hd : d.Respects (least + 1) edit view) (hleast : least ≤ 4) :
        d.listOrNull.Respects 6 (NullableEdit edit) (List.map view) :=
      (hd.listOrNull.nullable (fun _ _ => Decoder.listOrNull_of_isNone _)
        (by omega)).mono (by omega)
    exact .cons
      (Field.follows_make ((Header.decoder_respects h).mono (by decide))
        (fun _ => Option.isSome_map) fun _ _ => rfl) <| .cons
      (Field.follows_make (hlist (EventRecord.decoder_respects h) (by decide))
        (fun _ => Option.isSome_map) fun _ _ => rfl) <| .cons
      (Field.follows_make
        (hlist (FaultTreeRecord.decoder_respects h) (by decide))
        (fun _ => Option.isSome_map) fun _ _ => rfl) <| .cons
      (Field.follows_make
        (hlist (FunctionalEventRecord.decoder_respects h) (by decide))
        (fun _ => Option.isSome_map) fun _ _ => rfl) <| .cons
      (Field.follows_make
        (hlist (SequenceRecord.decoder_respects h) (by decide))
        (fun _ => Option.isSome_map) fun _ _ => rfl) .nil
  finish := by rintro ⟨_ | _, _ | _, _ | _, _ | _, _ | _⟩ <;> rfl

private theorem envelopeShape_lawful : envelopeShape.Lawful [] where
  fills := by simp [envelopeShape, Field.required, Field.fills_make]
  apart := by simp [envelopeShape]
  empty := by simp [envelopeShape, Field.required, Field.make]
  names := List.nil_subset _
  leavesOut _ _ h := nomatch h

private theorem envelopeShape_follows (h : LeavesRead leaf f) :
    envelopeShape.Follows [⟨"saphiresolveinput", SolutionEdit leaf⟩] 7
      (Option.map (·.mapIds f)) (·.mapIds f) where
  names := by simp
  fields := .cons
    (Field.follows_make
      (solutionShape_lawful.respects (solutionShape_follows h) (by decide))
      (fun _ => Option.isSome_map) fun _ _ => rfl) .nil
  finish := by rintro (_ | _) <;> rfl

/-- A solution is read alike before and after any number of changes. -/
theorem Solution.decode_respects (h : LeavesRead leaf f) :
    envelopeShape.decode.Respects 8 (Relation.ReflTransGen (EnvelopeEdit leaf))
      (·.mapIds f) :=
  (envelopeShape_lawful.respects (envelopeShape_follows h)
    (by decide)).reflTransGen

/-! ## Texts -/

theorem RawId.decoder_passes : RawId.decoder.Passes := Decoder.judged_passes _

theorem inputs_passes : inputs.Passes := Decoder.judged_passes _

theorem term_passes : term.Passes := Decoder.judged_passes _

theorem Header.decoder_passes : Header.decoder.Passes := by
  have htree : Decoder.Passes treeShape.decode := by
    refine RecordShape.decode_passes ?_
    simp [treeShape, Field.required, Field.passes_make, RawId.decoder_passes,
      Decoder.string_passes]
  refine RecordShape.decode_passes ?_
  simp [headerShape, Field.required, Field.passes_make, RawId.decoder_passes,
    htree]

theorem EventRecord.decoder_passes : EventRecord.decoder.Passes := by
  refine RecordShape.decode_passes ?_
  simp [eventShape, Field.required, Field.passes_make, RawId.decoder_passes,
    Decoder.string_passes]

theorem FaultTreeRecord.decoder_passes : FaultTreeRecord.decoder.Passes := by
  have hheader : Decoder.Passes faultTreeHeaderShape.decode := by
    refine RecordShape.decode_passes ?_
    simp [faultTreeHeaderShape, Field.required, Field.passes_make,
      RawId.decoder_passes]
  have hgate : Decoder.Passes gateShape.decode := by
    refine RecordShape.decode_passes ?_
    simp [gateShape, Field.required, Field.withDefault, Field.passes_make,
      RawId.decoder_passes, Decoder.string_passes, inputs_passes]
  refine RecordShape.decode_passes ?_
  simp [faultTreeShape, Field.required, Field.withDefault, Field.passes_make,
    hheader, hgate.listOrNull]

theorem FunctionalEventRecord.decoder_passes :
    FunctionalEventRecord.decoder.Passes := by
  refine RecordShape.decode_passes ?_
  simp [functionalEventShape, Field.required, Field.passes_make,
    RawId.decoder_passes]

theorem SequenceRecord.decoder_passes : SequenceRecord.decoder.Passes := by
  refine RecordShape.decode_passes ?_
  simp [sequenceShape, Field.required, Field.withDefault, Field.passes_make,
    RawId.decoder_passes, term_passes.listOrNull]

theorem Solution.decoder_passes : envelopeShape.decode.Passes := by
  have hsolution : Decoder.Passes solutionShape.decode := by
    refine RecordShape.decode_passes ?_
    simp [solutionShape, Field.required, Field.withDefault, Field.passes_make,
      Header.decoder_passes, EventRecord.decoder_passes.listOrNull,
      FaultTreeRecord.decoder_passes.listOrNull,
      FunctionalEventRecord.decoder_passes.listOrNull,
      SequenceRecord.decoder_passes.listOrNull]
  refine RecordShape.decode_passes ?_
  simp [envelopeShape, Field.required, Field.passes_make, hsolution]

/-- A text that gives a solution is JSON, and however its records are rearranged
    and the text is spaced, it gives the same solution. -/
theorem Solution.ofText_rearranged {text : String} {s : Solution}
    (h : Solution.ofText (Text.glyphsOf text) = .ok s) :
    (∃ t, IsJson t text.toList) ∧
    ∀ (t t' : Tree) (text' : String), IsJson t text.toList →
      Relation.ReflTransGen (EnvelopeEdit Eq) t t' → IsJson t' text'.toList →
      Solution.ofText (Text.glyphsOf text') = .ok s := by
  obtain ⟨t₀, ht₀, -⟩ := isJson_of_decode Solution.decoder_passes h
  refine ⟨⟨t₀, ht₀⟩, ?_⟩
  intro t t' text' ht hedit ht'
  have hs := (decode_of_isJson ht _).symm.trans h
  obtain ⟨s', hs', hview⟩ := Solution.decode_respects leavesRead_eq depthLimit
    t t' s (by decide) hedit hs
  have hsame : s' = s := by
    rw [← s'.mapIds_id, ← s.mapIds_id]
    exact hview
  rw [← hsame]
  exact (decode_of_isJson ht' _).trans hs'

/-! ## A pump -/

/-- A solution of an event, a fault tree with one gate, and a sequence. -/
def pump : Solution where
  header := ⟨⟨"T", .number (.natural 1)⟩, .number (.natural 1)⟩
  events := [⟨.number (.natural 5), .text "0", "pump", .text "0.5"⟩]
  faultTrees := [⟨.number (.natural 1),
    [⟨.number (.natural 2), "and", [], [.number (.natural 5)], []⟩]⟩]
  functionalEvents := [⟨.number (.natural 1)⟩]
  sequences := [⟨.number (.natural 7), [65541]⟩]

/-- A string literal without escapes. -/
def plainLiteral (s : String) : StringLiteral := ⟨s.toList.map .plain, .closed⟩

/-- A string in a document. -/
def quoted (s : String) : Tree := .string (plainLiteral s)

/-- A number in a document. -/
def counted (n : Nat) : Tree :=
  .number ⟨false, Number.decimalDigits n, none, none⟩

/-- An array in a document. -/
def listed (ts : List Tree) : Tree := .array ts .closed

/-- An object in a document. -/
def record (members : List (String × Tree)) : Tree :=
  .object (members.map fun m => (plainLiteral m.1, m.2)) .closed

/-- A document of such a solution, given how its initiating event, its event,
    its gate and its term are written. -/
def pumpDocument (initiatingEvent event gate term : Tree) : Tree :=
  listed [listed [
    listed [listed [quoted "T", initiatingEvent], counted 1],
    listed [event],
    listed [listed [listed [counted 1], listed [gate]]],
    listed [listed [counted 1]],
    listed [listed [counted 7, listed [term]]]]]

/-- The members of the event. -/
def pumpEvent (id correctionGate : Tree) : List (String × Tree) := [
  ("id", id), ("corrgate", correctionGate), ("name", quoted "pump"),
  ("value", quoted "0.5")]

/-- The fields of the gate, but for those that are left out. -/
def pumpGate (gates event : Tree) : List Tree :=
  [counted 2, quoted "and", gates, listed [event]]

/-- The document as a solver writes it. -/
def pumpText : String :=
  "[[[[\"T\",1],1],[\x7b\"id\":5,\"corrgate\":\"0\","
    ++ "\"name\":\"pump\",\"value\":\"0.5\"\x7d],"
    ++ "[[[1],[[2,\"and\",[],[5]]]]],[[1]],[[7,[65541]]]]]"

set_option maxRecDepth 4000 in
theorem isJson_pumpText : IsJson
    (pumpDocument (counted 1) (record (pumpEvent (counted 5) (quoted "0")))
      (listed (pumpGate (listed []) (counted 5))) (counted 65541))
    pumpText.toList :=
  isJson_iff_pass.mpr ⟨rfl, rfl⟩

theorem ofText_pumpText :
    Solution.ofText (Text.glyphsOf pumpText) = .ok pump :=
  (decode_of_isJson isJson_pumpText _).trans (by decide +kernel)

/-- Changes of the parts are a change of the document. -/
theorem pumpDocument_edit {i i' event event' gate gate' term term' : Tree}
    (hi : leaf i i') (hevent : EventEdit leaf event event')
    (hgate : GateEdit leaf gate gate') (hterm : leaf term term') :
    EnvelopeEdit leaf (pumpDocument i event gate term)
      (pumpDocument i' event' gate' term') := by
  have htree : TreeEdit leaf (listed [quoted "T", i])
      (listed [quoted "T", i']) :=
    .inl (.array (.keep _ (.value hi (.same _ _))) .closed)
  have hheader : HeaderEdit leaf
      (listed [listed [quoted "T", i], counted 1])
      (listed [listed [quoted "T", i'], counted 1]) :=
    .inl (.array (.value htree (.same _ _)) .closed)
  have hfaultTree : FaultTreeEdit leaf
      (listed [listed [counted 1], listed [gate]])
      (listed [listed [counted 1], listed [gate']]) := by
    refine .inl (.array (.keep _ (.value ?_ (.same _ _))) .closed)
    exact .inl (.array (.cons hgate .nil) .closed)
  have hsequence : SequenceEdit leaf (listed [counted 7, listed [term]])
      (listed [counted 7, listed [term']]) := by
    refine .inl (.array (.keep _ (.value ?_ (.same _ _))) .closed)
    exact .inl (.array (.cons hterm .nil) .closed)
  refine .inl (.array (.value ?_ (.same _ _)) .closed)
  refine .inl (.array (.value hheader (.value ?events (.value ?faultTrees
    (.keep _ (.value ?sequences (.same _ _)))))) .closed)
  case events => exact .inl (.array (.cons hevent .nil) .closed)
  case faultTrees => exact .inl (.array (.cons hfaultTree .nil) .closed)
  case sequences => exact .inl (.array (.cons hsequence .nil) .closed)

/-- A member that is no field may come first. -/
theorem rearranged_cons {names nullable : List String}
    {members : List (String × Tree)} {name : String} {t : Tree}
    {s : List Char} (hk : (plainLiteral name).read = .ok name)
    (hn : name ∉ names) (ht : Spells t s) :
    Rearranged names nullable (record members)
      (record ((name, t) :: members)) := by
  have h (ms : List (StringLiteral × Tree)) : Rearranged names nullable
      (.object ([] ++ ms) .closed)
      (.object ([] ++ (plainLiteral name, t) :: ms) .closed) :=
    .added hk hn ht
  exact h _

/-- The same document with the members of the event in another order and one
    that is no field among them, with `null` for what the gate has none of, and
    with spaces. -/
def rearrangedText : String :=
  "[[[[\"T\", 1],1], [\x7b\"note\":\x7b\"a\":[true]\x7d,"
    ++ "\"value\":\"0.5\",\"name\":\"pump\",\"corrgate\":\"0\",\"id\":5\x7d],\n"
    ++ "[[[1],[[2,\"and\",null,[5],null]]]], [[1]],[[7,[65541]]]]]\n"

set_option maxRecDepth 4000 in
theorem isJson_rearrangedText : IsJson
    (pumpDocument (counted 1)
      (record (("note", record [("a", listed [.bool true])])
        :: (pumpEvent (counted 5) (quoted "0")).reverse))
      (listed (pumpGate .null (counted 5) ++ [.null])) (counted 65541))
    rearrangedText.toList :=
  isJson_iff_pass.mpr ⟨rfl, rfl⟩

theorem Solution.ofText_rearranged_pump :
    Solution.ofText (Text.glyphsOf pumpText) = .ok pump ∧
    Solution.ofText (Text.glyphsOf rearrangedText) = .ok pump := by
  obtain ⟨-, hall⟩ := Solution.ofText_rearranged ofText_pumpText
  let note := record [("a", listed [.bool true])]
  let members := pumpEvent (counted 5) (quoted "0")
  obtain ⟨_, hnote⟩ : ∃ s, Spells note s := by
    have hjson : IsJson note "\x7b\"a\": [true]\x7d".toList :=
      isJson_iff_pass.mpr ⟨rfl, rfl⟩
    generalize "\x7b\"a\": [true]\x7d".toList = s at hjson
    obtain ⟨-, h, -⟩ := hjson
    exact ⟨_, h⟩
  -- the members change places, then another one comes in
  have hpermuted : EventEdit Eq (record members) (record members.reverse) :=
    .inr (.permuted (List.Perm.map _ (List.reverse_perm _).symm))
  have hadded : EventEdit Eq (record members.reverse)
      (record (("note", note) :: members.reverse)) :=
    .inr (rearranged_cons rfl (by decide) hnote)
  -- `null` is written for an empty list, and for one that is left out
  have hnone : NullableEdit Eq (listed []) .null := .inr ⟨.empty, .null⟩
  have hnull : GateEdit Eq (listed (pumpGate (listed []) (counted 5)))
      (listed (pumpGate .null (counted 5))) :=
    .inl (.array (.keep _ (.keep _ (.value hnone (.same _ _)))) .closed)
  have hextended : GateEdit Eq (listed (pumpGate .null (counted 5)))
      (listed (pumpGate .null (counted 5) ++ [.null])) :=
    .inr (.extended rfl (by decide) .null)
  exact ⟨ofText_pumpText, hall _ _ _ isJson_pumpText
    (.tail (.single (pumpDocument_edit rfl hpermuted hnull rfl))
      (pumpDocument_edit rfl hadded hextended rfl)) isJson_rearrangedText⟩

end RiskExchange.Solver
