import RiskExchange.Proofs.Conversion.Failures
import RiskExchange.Proofs.Model.Assembled
import RiskExchange.Proofs.Model.Counts
import RiskExchange.Proofs.Model.Emission

/-! # Successes — what a conversion that succeeds has done

    A conversion that succeeds has read its input before anything was written,
    saved the store at the place of its path and put the document at the place
    of the output; at other places it has made directories at most
    (`Completed`). The summary counts the elements of that document
    (`success_writes_document`). -/

namespace RiskExchange.Conversion

open RiskExchange.Disk
open RiskExchange.Disk.Session
open RiskExchange.Markup (Sink elementCount)

variable {r : Request} {d : Disk} {m : Prepared} {S O p : Place}
  {summary : Summary}

/-! ## The disk after a success -/

/-- The conversion has saved the store at the place `S` and then put its
    document at the place `O`. -/
structure Completed (r : Request) (d : Disk) (m : Prepared) (S O : Place) :
    Prop where
  saved : Saved r d m S
  changes : Changes (Path.mayMake d.here r.pathsAbove) {S, O} d
    ((run r).after d)
  directories : KeepsDirectories d ((run r).after d)
  leadsStore : Leads ((run r).after d) r.settings.sequenceStore S
  leadsOutput : Leads ((run r).after d) r.output O
  document : ((run r).after d).get? O = some (.file (m.document r))
  content : S ≠ O → ((run r).after d).get? S
    = some (.file (m.before.insert m.assembly.logic).content)

/-- Every conversion that succeeds is completed. -/
theorem completed_of_run (h : (run r).outcome d = .ok summary) :
    ∃ m S O, summary = summarize m.assembly ∧ Completed r d m S O := by
  cases hu : (upToMove r).outcome d with
  | error e =>
      rw [(run_of_error hu).1] at h
      exact nomatch h
  | ok m =>
      obtain ⟨S, hS⟩ := saved_of_upToMove hu
      cases hf : ((upToMove r).after d).moveFile m.staged r.output with
      | error f =>
          rw [(outcome_of_refused hu hS hf).1] at h
          exact nomatch h
      | ok d' =>
          obtain ⟨O, ho, hO, hc, hdoc, hsaved, hk⟩ := outcome_of_moved hu hS hf
          rw [ho] at h
          cases h
          exact ⟨m, S, O, rfl, hS, hc, hS.directories.trans hk,
            hS.leads.mono hk, hO.mono hk, hdoc, hsaved⟩

/-- A file elsewhere is there exactly if it was there before. -/
theorem Completed.file_iff (h : Completed r d m S O) (hS : p ≠ S)
    (hO : p ≠ O) (c : ByteArray) :
    ((run r).after d).get? p = some (.file c) ↔ d.get? p = some (.file c) := by
  have hp : p ∉ ({S, O} : Set Place) := by
    rintro (h1 | h1)
    · exact hS h1
    · exact hO (Set.mem_singleton_iff.mp h1)
  exact ⟨h.changes.file_of_file hp, h.changes.get?_eq hp⟩

/-! ## The model of a success -/

/-- A solution is loaded from what a file holds. -/
private theorem file_of_load {path : String} {solution : Solver.Solution}
    (h : (Solver.Solution.load path).outcome d = .ok solution) :
    ∃ c, d.entryAt path = .ok (.file c) ∧
      Solver.Solution.ofBytes c = .ok solution := by
  rw [Solver.Solution.load, outcome_bind_of_ok (outcome_query _ d),
    after_query] at h
  cases he : d.entryAt path with
  | error e =>
      rw [he] at h
      cases e
      case notFound => cases h
      all_goals cases h
  | ok e =>
      rw [he] at h
      cases e with
      | directory => cases h
      | file c => exact ⟨c, rfl, h⟩

/-- A model is built from what the input file holds at the start. -/
theorem solution_of_assemble {a : Model.Assembly}
    (h : (assemble r).outcome d = .ok a) :
    ∃ c solution, d.entryAt r.input = .ok (.file c) ∧
      Solver.Solution.ofBytes c = .ok solution ∧
      (Model.assemble solution).result = .ok a := by
  obtain ⟨solution, hload, h⟩ := outcome_bind_ok h
  obtain ⟨_, -, h⟩ := outcome_bind_ok h
  rw [outcome_mapError] at hload h
  obtain ⟨c, hc, hsolution⟩ := file_of_load (mapError_eq_ok hload)
  exact ⟨c, solution, hc, hsolution, mapError_eq_ok h⟩

/-- A conversion that succeeds has rendered the model of what its input held at
    the start to the output, which any sink with room for it takes as a whole,
    whether the text or the entities are written to it. The summary counts the
    elements of that document, and as many sequences as the logic has lists of
    codes; its key is the name of the event tree with the sequence count. A file
    to which neither the output nor the store leads is there afterwards exactly
    if it was there before. -/
theorem success_writes_document (h : (run r).outcome d = .ok summary) :
    ∃ c solution a, d.entryAt r.input = .ok (.file c) ∧
      Solver.Solution.ofBytes c = .ok solution ∧
      (Model.assemble solution).result = .ok a ∧
      ((run r).after d).entryAt r.output
        = .ok (.file (a.model.render r.settings.indent).toUTF8) ∧
      (∀ room, (a.model.render r.settings.indent).toUTF8.size ≤ room →
        a.model.writeTo r.settings.indent (Sink.ofRoom room)
          = (⟨room - (a.model.render r.settings.indent).toUTF8.size,
              (a.model.render r.settings.indent).toUTF8.data.toList⟩,
            true) ∧
        (a.model.emitTo r.settings.indent Sink.device).run (Sink.ofRoom room)
          = (⟨room - (a.model.render r.settings.indent).toUTF8.size,
              (a.model.render r.settings.indent).toUTF8.data.toList⟩,
            .ok ())) ∧
      summary.faultTrees = elementCount "define-fault-tree"
        (a.model.render r.settings.indent) ∧
      summary.gates = elementCount "define-gate"
        (a.model.render r.settings.indent) ∧
      summary.basicEvents = elementCount "define-basic-event"
        (a.model.render r.settings.indent) ∧
      summary.sequences = elementCount "define-sequence"
        (a.model.render r.settings.indent) ∧
      summary.sequences = a.logic.sequences.length ∧
      summary.storeKey = a.logic.key ∧
      summary.storeKey = a.model.eventTree.name ++ "-"
        ++ solution.header.sequenceCount.written ∧
      ∀ p, ¬ Leads ((run r).after d) r.output p →
        ¬ Leads ((run r).after d) r.settings.sequenceStore p →
        ∀ c, ((run r).after d).get? p = some (.file c) ↔
          d.get? p = some (.file c) := by
  obtain ⟨m, S, O, rfl, hdone⟩ := completed_of_run h
  obtain ⟨c, solution, hc, hsolution, hbuilt⟩ :=
    solution_of_assemble hdone.saved.assembled
  obtain ⟨htrees, hgates, hevents, hsequences⟩ :=
    Model.elementCount_model m.assembly.model r.settings.indent
  obtain ⟨hlogic, hkey⟩ := Model.assembled_logic hbuilt
  refine ⟨c, solution, m.assembly, hc, hsolution, hbuilt, ?_, ?_, htrees.symm,
    hgates.symm, hevents.symm, hsequences.symm, hlogic.symm, rfl, hkey, ?_⟩
  · rw [hdone.leadsOutput.entryAt, hdone.document]
    rfl
  · intro room hroom
    have hwrite : m.assembly.model.writeTo r.settings.indent
        (Sink.ofRoom room) = _ := Sink.write_of_room hroom
    refine ⟨hwrite, ?_⟩
    rw [Model.run_emitTo_sink, hwrite]
    rfl
  · intro p hO hS c
    refine hdone.file_iff ?_ ?_ c
    · rintro rfl
      exact hS hdone.leadsStore
    · rintro rfl
      exact hO hdone.leadsOutput

/-- A working directory with notes and a solver file: two events, two gates, of
    which one has inputs of two kinds, and two sequences. -/
def pumpStation : Disk where
  entries := [(["w"], .directory),
    (["w", "in.json"], .file ("[[[[\"T\",1],2],"
      ++ "[[5,0,\"pump\",\"0.5\"],[6,\"0\",\"valve\",\"1e-3\"]],"
      ++ "[[[1],[[2,\"and\",[3],[5]],[3,\"or\",[],[],[6,5]]]]],"
      ++ "[[1]],[[7,[65541]],[8,[131078,6]]]]]").toUTF8),
    (["w", "notes.txt"], .file "kept".toUTF8)]
  here := ["w"]

/-- What is reported of it is what its document has, and the notes are kept. -/
theorem success_writes_document_pumpStation :
    ∃ document : String,
      (run (toOutput "new/out.xml")).outcome pumpStation
        = .ok ⟨1, 2, 2, 2, "T-2"⟩ ∧
      ((run (toOutput "new/out.xml")).after pumpStation).entryAt "new/out.xml"
        = .ok (.file document.toUTF8) ∧
      elementCount "define-fault-tree" document = 1 ∧
      elementCount "define-gate" document = 2 ∧
      elementCount "define-basic-event" document = 2 ∧
      elementCount "define-sequence" document = 2 ∧
      ((run (toOutput "new/out.xml")).after pumpStation).get?
        ["w", "notes.txt"] = some (.file "kept".toUTF8) := by
  -- one evaluation of the run shows how it ends and where its paths lead
  obtain ⟨h, hto, hkeep⟩ :
      (run (toOutput "new/out.xml")).outcome pumpStation
        = .ok ⟨1, 2, 2, 2, "T-2"⟩ ∧
      ((run (toOutput "new/out.xml")).after pumpStation).locate "new/out.xml"
        = .ok ⟨["w", "new"], .name "out.xml", false⟩ ∧
      ((run (toOutput "new/out.xml")).after pumpStation).locate "store.json"
        = .ok ⟨["w"], .name "store.json", false⟩ := by decide +kernel
  obtain ⟨-, -, a, -, -, -, hout, -, htrees, hgates, hevents, hsequences, -, -,
    -, hkept⟩ := success_writes_document h
  have houtput : Leads _ "new/out.xml" ["w", "new", "out.xml"] :=
    ⟨_, _, hto, by decide, rfl⟩
  have hstore : Leads _ "store.json" ["w", "store.json"] :=
    ⟨_, _, hkeep, by decide, rfl⟩
  have hnotes := (hkept ["w", "notes.txt"]
    (fun hp => absurd (houtput.unique hp) (by decide))
    (fun hp => absurd (hstore.unique hp) (by decide)) _).mpr rfl
  exact ⟨_, h, hout, htrees.symm, hgates.symm, hevents.symm, hsequences.symm,
    hnotes⟩

end RiskExchange.Conversion
