import Mathlib.Data.List.Nodup
import RiskExchange.Proofs.Model.Naming
import RiskExchange.Proofs.Model.Reading

/-! # Acceptance — which solutions make a model, and what stops the others

    A solution makes a model if and only if the ids of its functional events,
    of its sequences and of its fault trees are written differently and all of
    its fault trees and its events can be built. The model then has one entity
    for each record, and no two entities are written alike (`Describes`). Of a
    solution that makes none the error is settled as well: it is that of the
    first fault in the order of building (`Refused`). -/

namespace RiskExchange.Model

open RiskExchange.Journal.Noted (result_bind)
open RiskExchange.Solver

/-! ## Names of one kind -/

section Kind

variable {α : Type} {id : α → RawId} {tag : Tag} {rs : List α}

/-- No two records have ids that are written alike. -/
def Distinct (id : α → RawId) (rs : List α) : Prop :=
  (rs.map fun r => (id r).written).Nodup

/-- The id of a record is written like that of a record before it, and it is
    the first of which that is so. -/
structure Repeats (id : α → RawId) (before : List α) (r : α) : Prop where
  distinct : Distinct id before
  repeated : ∃ q ∈ before, (id q).written = (id r).written

/-- A record more is different from those before it or repeats one of them. -/
theorem distinct_concat_iff {r : α} : Distinct id (rs ++ [r]) ↔
    Distinct id rs ∧ ¬ ∃ q ∈ rs, (id q).written = (id r).written := by
  simp [Distinct, List.nodup_append]

theorem fresh_tagged_iff :
    Fresh (fun r => .tagged tag (id r).written) [] rs ↔ Distinct id rs := by
  have hinj : Function.Injective (Identifier.tagged tag) :=
    fun s t h => (Identifier.tagged.inj h).2
  have hmap : rs.map (fun r => Identifier.tagged tag (id r).written)
      = (rs.map fun r => (id r).written).map (.tagged tag) := by
    rw [List.map_map]
    rfl
  rw [fresh_nil_iff, hmap, List.nodup_map_iff hinj, Distinct]

theorem contains_tagged_iff {r : α} :
    (rs.map (fun r => Identifier.tagged tag (id r).written) ++ []).contains
        (.tagged tag (id r).written) = true ↔
      ∃ q ∈ rs, (id q).written = (id r).written := by
  simp

/-- Names of one kind are kept if and only if they are written differently. -/
theorem EventTree.distinct_eq_ok_iff {names : List Identifier} :
    distinct (rs.map fun r => .tagged tag (id r).written) = .ok names ↔
      Distinct id rs ∧
      names = rs.map fun r => .tagged tag (id r).written := by
  rw [distinct_map, enrol_eq_ok_iff (by simp), fresh_tagged_iff, and_comm]
  refine and_congr_right fun _ => ?_
  simp only [Bool.false_eq_true, if_false, Except.ok.injEq]
  rw [← List.forall₂_map_left_iff (R := Eq), List.forall₂_eq_eq_eq]
  exact eq_comm

/-- Names of one kind are refused if and only if one of them is repeated. -/
theorem EventTree.distinct_eq_error_iff {e : BuildError} :
    distinct (rs.map fun r => .tagged tag (id r).written) = .error e ↔
      ∃ before r after, rs = before ++ r :: after ∧ Repeats id before r ∧
        e = .duplicateInEventTree (.tagged tag (id r).written) := by
  rw [distinct_map, enrol_eq_error_iff]
  refine exists_congr fun before => exists_congr fun r => exists_congr
    fun after => and_congr_right fun _ => ?_
  rw [← distinct_map]
  constructor
  · rintro ⟨⟨names, hnames⟩, he⟩
    split_ifs at he with hmem
    · exact ⟨⟨(distinct_eq_ok_iff.mp hnames).1, contains_tagged_iff.mp hmem⟩,
        (Except.error.inj he).symm⟩
  · rintro ⟨⟨hdistinct, hmem⟩, rfl⟩
    refine ⟨⟨_, distinct_eq_ok_iff.mpr ⟨hdistinct, rfl⟩⟩, ?_⟩
    rw [if_pos (contains_tagged_iff.mpr hmem)]

end Kind

/-! ## Fault trees -/

/-- The fault tree of a record can be built. -/
def Builds (r : FaultTreeRecord) : Prop :=
  ∃ t, (FaultTree.build r).result = .ok t

section FaultTrees

variable {rs : List FaultTreeRecord} {trees : List FaultTree} {e : BuildError}

/-- Fault trees are built if and only if each of them can be and their ids are
    written differently. -/
theorem FaultTree.buildAll_eq_ok_iff : (buildAll [] rs).result = .ok trees ↔
    List.Forall₂ (fun r t => (build r).result = .ok t) rs trees ∧
      Distinct (·.id) rs := by
  have hrefuses (r : FaultTreeRecord) (t : FaultTree) :
      ((build r).result >>= fun t => if true then
        .error (BuildError.duplicateFaultTree t.name) else .ok t) ≠ .ok t := by
    intro h
    obtain ⟨_, -, h⟩ := bind_eq_ok h
    exact nomatch h
  have hbuild (r : FaultTreeRecord) : ((build r).result >>= fun t =>
      if false then .error (BuildError.duplicateFaultTree t.name) else .ok t)
        = (build r).result := by
    cases (build r).result with
    | error e => rfl
    | ok t => rfl
  rw [result_buildAll, enrol_eq_ok_iff hrefuses, fresh_tagged_iff]
  simp only [hbuild]

/-- Fault trees cannot be built if and only if one of them cannot be, or its
    id is that of one before it. -/
theorem FaultTree.buildAll_eq_error_iff :
    (buildAll [] rs).result = .error e ↔ ∃ before r after,
      rs = before ++ r :: after ∧ (∀ q ∈ before, Builds q) ∧
      Distinct (·.id) before ∧
      ((build r).result = .error e ∨
        Builds r ∧ Repeats (·.id) before r ∧
          e = .duplicateFaultTree (.tagged .faultTree r.id.written)) := by
  rw [result_buildAll, enrol_eq_error_iff]
  refine exists_congr fun before => exists_congr fun r => exists_congr
    fun after => and_congr_right fun _ => ?_
  rw [← result_buildAll]
  constructor
  · rintro ⟨⟨trees, htrees⟩, he⟩
    obtain ⟨hall, hdistinct⟩ := buildAll_eq_ok_iff.mp htrees
    refine ⟨exists_forall₂_iff.mp ⟨trees, hall⟩, hdistinct, ?_⟩
    rcases bind_eq_error_iff.mp he with he | ⟨t, ht, he⟩
    · exact .inl he
    · split_ifs at he with hmem
      rw [name_of_build ht] at he
      exact .inr ⟨⟨t, ht⟩, ⟨hdistinct, contains_tagged_iff.mp hmem⟩,
        (Except.error.inj he).symm⟩
  · rintro ⟨hbuilt, hdistinct, he⟩
    obtain ⟨trees, hall⟩ := exists_forall₂_iff.mpr hbuilt
    refine ⟨⟨trees, buildAll_eq_ok_iff.mpr ⟨hall, hdistinct⟩⟩, ?_⟩
    rcases he with he | ⟨⟨t, ht⟩, ⟨-, hmem⟩, rfl⟩
    · exact bind_eq_error_iff.mpr (.inl he)
    · refine bind_eq_error_iff.mpr (.inr ⟨t, ht, ?_⟩)
      rw [if_pos (contains_tagged_iff.mpr hmem), name_of_build ht]

end FaultTrees

/-! ## All names of a model -/

/-- The names of a model, its gates apart, and those of some gates. -/
def namesWith (m : Model) (gates : List Gate) : List Identifier :=
  [[m.initiatingEvent.name], m.eventTree.functionalEvents,
    m.eventTree.sequences, m.faultTrees.map (·.name),
    m.modelData.events.map (·.name), gates.map (·.name)].flatten

/-- Different names of one kind. -/
def OfKind (tag : Tag) (ids : List Identifier) : Prop :=
  ids.Nodup ∧ ∀ id ∈ ids, id.tag = tag

/-- Lists of different names, each of a kind of its own. -/
theorem nodup_flatten_of_kinds {tags : List Tag} (htags : tags.Nodup)
    {parts : List (List Identifier)} (h : List.Forall₂ OfKind tags parts) :
    parts.flatten.Nodup := by
  have hkinds : parts.flatten.Nodup ∧ ∀ id ∈ parts.flatten, id.tag ∈ tags := by
    induction h with
    | nil => exact ⟨List.nodup_nil, fun id hid => nomatch hid⟩
    | @cons tag ids tags parts hids _ ih =>
        obtain ⟨hnot, htags⟩ := List.nodup_cons.mp htags
        obtain ⟨hnodup, hmem⟩ := ih htags
        rw [List.flatten_cons]
        constructor
        · refine List.nodup_append'.mpr ⟨hids.1, hnodup, ?_⟩
          intro id hid hid'
          exact hnot (hids.2 id hid ▸ hmem id hid')
        · intro id hid
          rcases List.mem_append.mp hid with hid | hid
          · rw [hids.2 id hid]
            exact List.mem_cons_self ..
          · exact List.mem_cons_of_mem _ (hmem id hid)
  exact hkinds.1

theorem Distinct.ofKind {α : Type} {id : α → RawId} {rs : List α}
    (h : Distinct id rs) (tag : Tag) :
    OfKind tag (rs.map fun r => .tagged tag (id r).written) := by
  refine ⟨(fresh_tagged_iff.mpr h).nodup, ?_⟩
  intro name hname
  obtain ⟨r, -, rfl⟩ := List.mem_map.mp hname
  rfl

theorem FaultTree.gates_ofKind {r : FaultTreeRecord} {t : FaultTree}
    (h : (build r).result = .ok t) :
    OfKind .gate (t.gates.map (·.name)) := by
  obtain ⟨hnames, hnodup⟩ := gateNames_of_build h
  refine ⟨hnodup, ?_⟩
  rw [hnames]
  intro id hid
  cases hgates : r.gates with
  | nil =>
      rw [hgates] at hid
      exact nomatch hid
  | cons g rest =>
      rw [hgates] at hid
      rcases List.mem_cons.mp hid with rfl | hid
      · rfl
      · obtain ⟨raw, -, rfl⟩ := List.mem_map.mp hid
        rfl

theorem ModelData.events_ofKind {rs : List EventRecord} {d : ModelData}
    (h : (build rs).result = .ok d) :
    OfKind .basicEvent (d.events.map (·.name)) := by
  obtain ⟨hnames, hnodup⟩ := names_of_build h
  refine ⟨hnodup, ?_⟩
  rw [hnames]
  intro id hid
  obtain ⟨r, -, rfl⟩ := List.mem_map.mp hid
  rfl

/-! ## The whole model -/

/-- The model has one functional event, sequence and fault tree for each
    record, in their order, and the events that were declared. Its logic has the
    codes of the terms of each sequence. No two of its names are written alike,
    gates of different trees apart. -/
structure Describes (s : Solution) (a : Assembly) : Prop where
  functionalEvents : a.model.eventTree.functionalEvents
    = s.functionalEvents.map fun r => .tagged .functionalEvent r.id.written
  sequences : a.model.eventTree.sequences
    = s.sequences.map fun r => .tagged .sequence r.id.written
  logic : a.logic.sequences
    = s.sequences.map fun r => r.terms.map CutSet.TermCode.ofTerm
  faultTrees : List.Forall₂ (fun r t => (FaultTree.build r).result = .ok t ∧
    t.name = .tagged .faultTree r.id.written) s.faultTrees a.model.faultTrees
  modelData : (ModelData.build s.events).result = .ok a.model.modelData
  names : ((a.model.namesWith []).map (·.text)).Nodup
  gates : ∀ t ∈ a.model.faultTrees,
    ((a.model.namesWith t.gates).map (·.text)).Nodup

/-- The first fault of a solution in the order of building: functional events,
    sequences, fault trees one by one, events. A fault tree's own error comes
    before that of its name. -/
inductive Refused (s : Solution) : BuildError → Prop where
  | functionalEvent {before r after}
      (hs : s.functionalEvents = before ++ r :: after)
      (hr : Repeats (·.id) before r) :
      Refused s (.duplicateInEventTree (.tagged .functionalEvent r.id.written))
  | sequence {before r after} (hevents : Distinct (·.id) s.functionalEvents)
      (hs : s.sequences = before ++ r :: after)
      (hr : Repeats (·.id) before r) :
      Refused s (.duplicateInEventTree (.tagged .sequence r.id.written))
  | faultTree {before r after e}
      (hevents : Distinct (·.id) s.functionalEvents)
      (hsequences : Distinct (·.id) s.sequences)
      (hs : s.faultTrees = before ++ r :: after)
      (hbefore : ∀ q ∈ before, Builds q)
      (hdistinct : Distinct (·.id) before)
      (hr : (FaultTree.build r).result = .error e) : Refused s e
  | faultTreeName {before r after}
      (hevents : Distinct (·.id) s.functionalEvents)
      (hsequences : Distinct (·.id) s.sequences)
      (hs : s.faultTrees = before ++ r :: after)
      (hbefore : ∀ q ∈ before, Builds q) (hbuilt : Builds r)
      (hr : Repeats (·.id) before r) :
      Refused s (.duplicateFaultTree (.tagged .faultTree r.id.written))
  | modelData {e} (hevents : Distinct (·.id) s.functionalEvents)
      (hsequences : Distinct (·.id) s.sequences)
      (hbuilt : ∀ q ∈ s.faultTrees, Builds q)
      (hdistinct : Distinct (·.id) s.faultTrees)
      (hd : (ModelData.build s.events).result = .error e) : Refused s e

section Assemble

variable {s : Solution} {a : Assembly} {e : BuildError}
  {trees : List FaultTree} {data : ModelData}

/-- The model of a solution with the fault trees and the events that have been
    built. -/
def assemblyWith (s : Solution) (trees : List FaultTree) (data : ModelData) :
    Assembly where
  model := {
    initiatingEvent := .ofHeader s.header
    eventTree := {
      name := s.header.tree.name
      functionalEvents := s.functionalEvents.map fun r =>
        .tagged .functionalEvent r.id.written
      sequences := s.sequences.map fun r => .tagged .sequence r.id.written }
    faultTrees := trees
    modelData := data }
  logic := EventTree.logicOf s.header s.sequences

/-- The ids of a solution are written differently, and the fault trees and the
    events are built of its records. -/
structure Built (s : Solution) (trees : List FaultTree) (data : ModelData) :
    Prop where
  functionalEvents : Distinct (·.id) s.functionalEvents
  sequences : Distinct (·.id) s.sequences
  faultTrees : Distinct (·.id) s.faultTrees
  trees : List.Forall₂ (fun r t => (FaultTree.build r).result = .ok t)
    s.faultTrees trees
  data : (ModelData.build s.events).result = .ok data

/-- Assembling goes through the parts of a model in their order. -/
theorem result_assemble (s : Solution) : (assemble s).result =
    (EventTree.distinct (s.functionalEvents.map fun r =>
      .tagged .functionalEvent r.id.written) >>= fun events =>
    EventTree.distinct (s.sequences.map fun r =>
      .tagged .sequence r.id.written) >>= fun sequences =>
    (FaultTree.buildAll [] s.faultTrees).result >>= fun trees =>
    (ModelData.build s.events).result >>= fun data =>
    .ok {
      model := {
        initiatingEvent := .ofHeader s.header
        eventTree := ⟨s.header.tree.name, events, sequences⟩
        faultTrees := trees
        modelData := data }
      logic := EventTree.logicOf s.header s.sequences }) := by
  rw [assemble, EventTree.build]
  simp only [result_bind, bind_assoc]
  rfl

theorem assemble_eq_ok_iff : (assemble s).result = .ok a ↔
    ∃ trees data, Built s trees data ∧ a = assemblyWith s trees data := by
  rw [result_assemble]
  constructor
  · intro h
    obtain ⟨events, hevents, h⟩ := bind_eq_ok h
    obtain ⟨sequences, hsequences, h⟩ := bind_eq_ok h
    obtain ⟨trees, htrees, h⟩ := bind_eq_ok h
    obtain ⟨data, hdata, h⟩ := bind_eq_ok h
    obtain ⟨hfirst, rfl⟩ := EventTree.distinct_eq_ok_iff.mp hevents
    obtain ⟨hsecond, rfl⟩ := EventTree.distinct_eq_ok_iff.mp hsequences
    obtain ⟨hall, hthird⟩ := FaultTree.buildAll_eq_ok_iff.mp htrees
    exact ⟨trees, data, ⟨hfirst, hsecond, hthird, hall, hdata⟩,
      (Except.ok.inj h).symm⟩
  · rintro ⟨trees, data, h, rfl⟩
    rw [EventTree.distinct_eq_ok_iff.mpr ⟨h.functionalEvents, rfl⟩, ok_bind,
      EventTree.distinct_eq_ok_iff.mpr ⟨h.sequences, rfl⟩, ok_bind,
      FaultTree.buildAll_eq_ok_iff.mpr ⟨h.trees, h.faultTrees⟩, ok_bind,
      h.data, ok_bind]
    rfl

/-- The names of the model with the gates of one of its trees, or with
    none. -/
private theorem Built.nodup_names (h : Built s trees data) {gates : List Gate}
    (hgates : OfKind .gate (gates.map (·.name))) :
    (((assemblyWith s trees data).model.namesWith gates).map
      (·.text)).Nodup := by
  have htrees : OfKind .faultTree (trees.map (·.name)) := by
    rw [map_eq_map_of_forall₂ (h.trees.imp fun _ _ => FaultTree.name_of_build)]
    exact h.faultTrees.ofKind .faultTree
  have hinitiating : OfKind .initiatingEvent
      [(InitiatingEvent.ofHeader s.header).name] := by
    refine ⟨List.nodup_singleton _, ?_⟩
    intro id hid
    rw [List.mem_singleton.mp hid]
    rfl
  have hparts : List.Forall₂ OfKind [.initiatingEvent, .functionalEvent,
        .sequence, .faultTree, .basicEvent, .gate]
      [[(InitiatingEvent.ofHeader s.header).name],
        s.functionalEvents.map fun r => .tagged .functionalEvent r.id.written,
        s.sequences.map fun r => .tagged .sequence r.id.written,
        trees.map (·.name), data.events.map (·.name), gates.map (·.name)] :=
    .cons hinitiating (.cons (h.functionalEvents.ofKind _)
      (.cons (h.sequences.ofKind _) (.cons htrees
        (.cons (ModelData.events_ofKind h.data) (.cons hgates .nil)))))
  exact (List.nodup_map_iff Identifier.text_injective).mpr
    (nodup_flatten_of_kinds (by decide) hparts)

/-- What has been assembled describes the solution. -/
theorem Built.describes (h : Built s trees data) :
    Describes s (assemblyWith s trees data) where
  functionalEvents := rfl
  sequences := rfl
  logic := rfl
  faultTrees := h.trees.imp fun _ _ ht => ⟨ht, FaultTree.name_of_build ht⟩
  modelData := h.data
  names := h.nodup_names ⟨List.nodup_nil, fun _ hid => nomatch hid⟩
  gates := by
    intro t ht
    obtain ⟨r, hr⟩ := exists_forall₂_iff.mp ⟨_, h.trees.flip⟩ t ht
    exact h.nodup_names (FaultTree.gates_ofKind hr)

theorem refused_of_assemble (h : (assemble s).result = .error e) : Refused s e := by
  rw [result_assemble] at h
  rcases bind_eq_error_iff.mp h with h | ⟨_, hevents, h⟩
  · obtain ⟨before, r, after, hs, hr, rfl⟩ :=
      EventTree.distinct_eq_error_iff.mp h
    exact .functionalEvent hs hr
  replace hevents := (EventTree.distinct_eq_ok_iff.mp hevents).1
  rcases bind_eq_error_iff.mp h with h | ⟨_, hsequences, h⟩
  · obtain ⟨before, r, after, hs, hr, rfl⟩ :=
      EventTree.distinct_eq_error_iff.mp h
    exact .sequence hevents hs hr
  replace hsequences := (EventTree.distinct_eq_ok_iff.mp hsequences).1
  rcases bind_eq_error_iff.mp h with h | ⟨trees, htrees, h⟩
  · obtain ⟨before, r, after, hs, hbefore, hdistinct, h⟩ :=
      FaultTree.buildAll_eq_error_iff.mp h
    rcases h with h | ⟨hbuilt, hr, rfl⟩
    · exact .faultTree hevents hsequences hs hbefore hdistinct h
    · exact .faultTreeName hevents hsequences hs hbefore hbuilt hr
  obtain ⟨hall, hdistinct⟩ := FaultTree.buildAll_eq_ok_iff.mp htrees
  rcases bind_eq_error_iff.mp h with h | ⟨_, -, h⟩
  · exact .modelData hevents hsequences
      (exists_forall₂_iff.mp ⟨trees, hall⟩) hdistinct h
  · exact nomatch h

theorem Refused.assemble {s : Solution} {e : BuildError} (h : Refused s e) :
    (assemble s).result = .error e := by
  rw [result_assemble]
  cases h with
  | functionalEvent hs hr =>
      rw [EventTree.distinct_eq_error_iff.mpr ⟨_, _, _, hs, hr, rfl⟩]
      rfl
  | sequence hevents hs hr =>
      rw [EventTree.distinct_eq_ok_iff.mpr ⟨hevents, rfl⟩, ok_bind,
        EventTree.distinct_eq_error_iff.mpr ⟨_, _, _, hs, hr, rfl⟩]
      rfl
  | faultTree hevents hsequences hs hbefore hdistinct hr =>
      rw [EventTree.distinct_eq_ok_iff.mpr ⟨hevents, rfl⟩, ok_bind,
        EventTree.distinct_eq_ok_iff.mpr ⟨hsequences, rfl⟩, ok_bind,
        FaultTree.buildAll_eq_error_iff.mpr
          ⟨_, _, _, hs, hbefore, hdistinct, .inl hr⟩]
      rfl
  | faultTreeName hevents hsequences hs hbefore hbuilt hr =>
      rw [EventTree.distinct_eq_ok_iff.mpr ⟨hevents, rfl⟩, ok_bind,
        EventTree.distinct_eq_ok_iff.mpr ⟨hsequences, rfl⟩, ok_bind,
        FaultTree.buildAll_eq_error_iff.mpr
          ⟨_, _, _, hs, hbefore, hr.distinct, .inr ⟨hbuilt, hr, rfl⟩⟩]
      rfl
  | modelData hevents hsequences hbuilt hdistinct hd =>
      obtain ⟨trees, hall⟩ := exists_forall₂_iff.mpr hbuilt
      rw [EventTree.distinct_eq_ok_iff.mpr ⟨hevents, rfl⟩, ok_bind,
        EventTree.distinct_eq_ok_iff.mpr ⟨hsequences, rfl⟩, ok_bind,
        FaultTree.buildAll_eq_ok_iff.mpr ⟨hall, hdistinct⟩, ok_bind, hd]
      rfl

/-- A solution makes a model if and only if the ids of its functional events,
    its sequences and its fault trees are written differently, and each fault
    tree and the events can be built. The model describes the solution, and
    otherwise the error is that of the first fault. -/
theorem assemble_accepts_iff (s : Solution) :
    ((∃ a, (assemble s).result = .ok a) ↔
      Distinct (·.id) s.functionalEvents ∧ Distinct (·.id) s.sequences ∧
      Distinct (·.id) s.faultTrees ∧
      (∀ r ∈ s.faultTrees, ∃ t, (FaultTree.build r).result = .ok t) ∧
      ∃ d, (ModelData.build s.events).result = .ok d) ∧
    (∀ a, (assemble s).result = .ok a → Describes s a) ∧
    ∀ e, (assemble s).result = .error e ↔ Refused s e := by
  refine ⟨⟨?_, ?_⟩, ?_, fun _ => ⟨refused_of_assemble, Refused.assemble⟩⟩
  · rintro ⟨a, ha⟩
    obtain ⟨trees, data, h, -⟩ := assemble_eq_ok_iff.mp ha
    exact ⟨h.functionalEvents, h.sequences, h.faultTrees,
      exists_forall₂_iff.mp ⟨trees, h.trees⟩, data, h.data⟩
  · rintro ⟨hevents, hsequences, htrees, hbuilt, data, hdata⟩
    obtain ⟨trees, hall⟩ := exists_forall₂_iff.mpr hbuilt
    exact ⟨_, assemble_eq_ok_iff.mpr ⟨trees, data,
      ⟨hevents, hsequences, htrees, hall, hdata⟩, rfl⟩⟩
  · intro a ha
    obtain ⟨trees, data, h, rfl⟩ := assemble_eq_ok_iff.mp ha
    exact h.describes

end Assemble

/-- A solution with ids of both spellings, and with functional events as
    given. -/
def twoTrees (functionalEvents : List FunctionalEventRecord) : Solution where
  header := ⟨⟨"T", .number (.natural 1)⟩, .number (.natural 2)⟩
  events := [⟨.text "7", .number (.natural 0), "Pump", .text "1.5E-03"⟩]
  faultTrees := [
    ⟨.number (.natural 7), [
      ⟨.number (.natural 1), "and", [.text "7"], [.text "7"], []⟩,
      ⟨.text "7", "1/1", [], [], [.text "7"]⟩]⟩,
    ⟨.text "8", []⟩]
  functionalEvents := functionalEvents
  sequences := [⟨.text "7", [65]⟩, ⟨.number (.natural 8), [151553, 3]⟩]

/-- The model of that solution with two functional events. -/
def twoTreesAssembly : Assembly where
  model :=
    { initiatingEvent := ⟨.tagged .initiatingEvent "1", "T"⟩
      eventTree := ⟨"T",
        [.tagged .functionalEvent "7", .tagged .functionalEvent "07"],
        [.tagged .sequence "7", .tagged .sequence "8"]⟩
      faultTrees := [
        ⟨.tagged .faultTree "7", [
          ⟨.top, .and, [.tagged .gate "7"], [.tagged .basicEvent "7"], []⟩,
          ⟨.tagged .gate "7", .atLeast 1, [], [],
            [.tagged .basicEvent "7"]⟩]⟩,
        ⟨.tagged .faultTree "8", []⟩]
      modelData := ⟨[⟨.tagged .basicEvent "7", "Pump", "1.500000E-03"⟩]⟩ }
  logic := ⟨"T-2", [[.ofTerm 65], [.ofTerm 151553, .ofTerm 3]]⟩

/-- An id may be spelled as a number once and as a text in another place, but
    not twice among the functional events. -/
theorem assemble_accepts_iff_twoTrees :
    Describes (twoTrees [⟨.number (.natural 7)⟩, ⟨.text "07"⟩])
      twoTreesAssembly ∧
    (assemble (twoTrees [⟨.number (.natural 7)⟩, ⟨.text "7"⟩])).result
      = .error (.duplicateInEventTree (.tagged .functionalEvent "7")) := by
  have hok : (assemble (twoTrees
      [⟨.number (.natural 7)⟩, ⟨.text "07"⟩])).result
        = .ok twoTreesAssembly := by
    decide +kernel
  have hrepeats : Repeats FunctionalEventRecord.id [⟨.number (.natural 7)⟩]
      ⟨.text "7"⟩ :=
    ⟨List.nodup_singleton _, _, List.mem_singleton_self _, rfl⟩
  exact ⟨(assemble_accepts_iff _).2.1 _ hok,
    ((assemble_accepts_iff _).2.2 _).mpr (.functionalEvent rfl hrepeats)⟩

end RiskExchange.Model
