import RiskExchange.Proofs.Conversion.Successes
import RiskExchange.Proofs.Store.Persisting

/-! # Coinciding paths — conversions whose files are not all different

    Nothing keeps the input, the output and the store of a conversion apart,
    and the output is written last. A store that is not the output's file has
    the new entry and all its old keys afterwards, and an input that is neither
    the output's file nor the store's is as it was
    (`success_keeps_separate_files`). Where two of them are one file, the later
    of the two writes is what is found there (`coinciding_files_lost`). -/

namespace RiskExchange.Conversion

open RiskExchange.Disk
open RiskExchange.Disk.Session
open RiskExchange.Store (SequenceStore)
open RiskExchange.Store.SequenceStore (openAt readEntries)

variable {r : Request} {d : Disk} {m : Prepared} {S O : Place}
  {summary : Summary}

/-- Both paths lead to one place. -/
def SameFile (d : Disk) (path other : String) : Prop :=
  ∃ p, Leads d path p ∧ Leads d other p

/-- Paths of one file are looked up the same. -/
theorem SameFile.locate_eq {path other : String} (h : SameFile d path other) :
    d.locate path = d.locate other := by
  obtain ⟨p, ⟨dir, n, hl, -, hp⟩, ⟨dir', n', hl', -, hp'⟩⟩ := h
  obtain ⟨rfl, hn⟩ := List.append_inj' (hp.symm.trans hp') rfl
  cases hn
  rw [hl, hl']

/-! ## The store -/

/-- What a conversion has opened can be saved and opened again. -/
theorem Saved.storable (h : Saved r d m S) :
    SequenceStore.Storable m.before.entries := by
  cases hon : m.before.onDisk with
  | true =>
      obtain ⟨c, -, hread⟩ := h.onDisk hon
      exact SequenceStore.storable_of_readEntries hread
  | false =>
      rw [h.empty hon]
      exact .object (by decide) List.nodup_nil (fun m hm => nomatch hm)

/-- The entries that could be opened at the start are those that the conversion
    has opened. -/
theorem Saved.entries_eq (h : Saved r d m S) {s : SequenceStore}
    (ho : (openAt r.settings.sequenceStore).outcome d = .ok s)
    (hs : s.entries ≠ []) : m.before.entries = s.entries := by
  rcases SequenceStore.openAt_eq_ok_iff.mp ho with
    ⟨c, entries, hc, hread, rfl⟩ | ⟨-, rfl⟩
  · obtain ⟨hon, hcS⟩ := h.shown _ (shown_eq_some_iff.mpr hc)
    obtain ⟨c', hc', hread'⟩ := h.onDisk hon
    rw [hcS] at hc'
    cases hc'
    rw [hread] at hread'
    exact (Except.ok.inj hread').symm
  · -- without a file there are no entries
    exact absurd rfl hs

/-- A store that is not overwritten by the output is opened with the new entry
    in it. -/
theorem Completed.openAt (h : Completed r d m S O) (hne : S ≠ O) :
    (openAt r.settings.sequenceStore).outcome ((run r).after d)
      = .ok (m.before.insert m.assembly.logic).reopened := by
  have hc : ((run r).after d).entryAt r.settings.sequenceStore
      = .ok (.file (m.before.insert m.assembly.logic).content) := by
    rw [h.leadsStore.entryAt, h.content hne]
  have hread : readEntries r.settings.sequenceStore
      (m.before.insert m.assembly.logic).content = .ok _ :=
    SequenceStore.readEntries_content
      (SequenceStore.storable_insert h.saved.storable m.assembly.logic)
  refine SequenceStore.openAt_eq_ok_iff.mpr (.inl ⟨_, _, hc, hread, ?_⟩)
  rw [SequenceStore.reopened, SequenceStore.path_insert, h.saved.path]

/-! ## The input -/

/-- An input that is no file of the output or the store is read as before. -/
theorem Completed.entryAt_input (h : Completed r d m S O)
    (hO : ¬ SameFile ((run r).after d) r.output r.input)
    (hS : ¬ SameFile ((run r).after d) r.settings.sequenceStore r.input) :
    ((run r).after d).entryAt r.input = d.entryAt r.input := by
  obtain ⟨c, -, hc, -⟩ := solution_of_assemble h.saved.assembled
  obtain ⟨I, hI, hIc⟩ := leads_of_entryAt hc
  have hI' : Leads ((run r).after d) r.input I := hI.mono h.directories
  have hIS : I ≠ S := by
    rintro rfl
    exact hS ⟨I, h.leadsStore, hI'⟩
  have hIO : I ≠ O := by
    rintro rfl
    exact hO ⟨I, h.leadsOutput, hI'⟩
  rw [hc, hI'.entryAt, (h.file_iff hIS hIO c).mpr hIc]

/-! ## Both -/

/-- After a conversion that succeeds, a store that is not the output's file can
    be opened, the sequences of the converted model are found under the key of
    the summary, every key that could be found before is there and what is
    decoded under the others is the same; and an input that is neither the
    output's file nor the store's holds what it held before. -/
theorem success_keeps_separate_files (h : (run r).outcome d = .ok summary) :
    (¬ SameFile ((run r).after d) r.output r.settings.sequenceStore →
      ∃ t a, (openAt r.settings.sequenceStore).outcome ((run r).after d)
          = .ok t ∧
        (assemble r).outcome d = .ok a ∧ summary.storeKey = a.logic.key ∧
        t.entry summary.storeKey = .ok (some a.logic.sequences) ∧
        ∀ s, (openAt r.settings.sequenceStore).outcome d = .ok s →
          ∀ key ∈ s.keys, key ∈ t.keys ∧ (key ≠ summary.storeKey →
            (t.entry key).toOption = (s.entry key).toOption)) ∧
    (¬ SameFile ((run r).after d) r.output r.input →
      ¬ SameFile ((run r).after d) r.settings.sequenceStore r.input →
      ((run r).after d).entryAt r.input = d.entryAt r.input) := by
  obtain ⟨m, S, O, rfl, hdone⟩ := completed_of_run h
  refine ⟨fun hne => ?_, fun hO hS => hdone.entryAt_input hO hS⟩
  have hSO : S ≠ O := by
    rintro rfl
    exact hne ⟨S, hdone.leadsOutput, hdone.leadsStore⟩
  refine ⟨_, m.assembly, hdone.openAt hSO, hdone.saved.assembled, rfl,
    SequenceStore.entry_reopened_insert m.before m.assembly.logic, ?_⟩
  intro s ho key hkey
  -- the run opens the store after the directories of the output have been
  -- made; a store with a key in it is the same then
  have hentries : m.before.entries = s.entries := by
    refine hdone.saved.entries_eq ho ?_
    intro hnil
    rw [SequenceStore.keys, hnil] at hkey
    cases hkey
  have hbefore := SequenceStore.agrees_of_entries hentries
  have hagrees := SequenceStore.agrees_reopened
    (m.before.insert m.assembly.logic)
  refine ⟨?_, fun hne => ?_⟩
  · rw [hagrees.keys]
    refine SequenceStore.mem_keys_insert ?_ m.assembly.logic
    rw [hbefore.keys]
    exact hkey
  · rw [hagrees.entry, SequenceStore.toOption_entry_insert_of_ne hne,
      hbefore.entry]

/-- The working directory with a store of one entry. -/
def oneKey : Disk := workbench "\x7b\"A-1\":[[\"s1\"]]\x7d"

/-- A new output leaves the entry of the store and the input as they are. -/
theorem success_keeps_separate_files_new :
    (∃ t, (openAt "store.json").outcome
        ((run (toOutput "new/out.xml")).after oneKey) = .ok t ∧
      "A-1" ∈ t.keys ∧ (t.entry "T-0").toOption.isSome = true) ∧
    ((run (toOutput "new/out.xml")).after oneKey).entryAt "in.json"
      = oneKey.entryAt "in.json" := by
  have h : (run (toOutput "new/out.xml")).outcome oneKey
      = .ok ⟨0, 0, 0, 0, "T-0"⟩ := by decide +kernel
  have hkeys : ((openAt "store.json").outcome oneKey).toOption.map
      SequenceStore.keys = some ["A-1"] := by decide +kernel
  obtain ⟨s, hs, hskeys⟩ := Option.map_eq_some_iff.mp hkeys
  have hmem : "A-1" ∈ s.keys := by
    rw [hskeys]
    exact List.mem_cons_self ..
  obtain ⟨hstore, hinput⟩ := success_keeps_separate_files h
  obtain ⟨t, a, ht, -, -, hentry, hold⟩ :=
    hstore (fun hs => absurd hs.locate_eq (by decide +kernel))
  refine ⟨⟨t, ht, ?_, ?_⟩, hinput ?_ ?_⟩
  · exact (hold s (toOption_eq_some_iff.mp hs) "A-1" hmem).1
  · change (t.entry "T-0") = _ at hentry
    rw [hentry]
    rfl
  · exact fun hs => absurd hs.locate_eq (by decide +kernel)
  · exact fun hs => absurd hs.locate_eq (by decide +kernel)

/-! ## Files that are not separate -/

open RiskExchange.Json in
/-- The document of a model is no JSON text. -/
theorem read_document (a : Model) (indent : Nat) :
    Document.read (Text.glyphs (a.render indent).toUTF8)
      = ⟨.broken (.always .expectedValue), false⟩ := by
  have hbreak : Markup.breakBefore indent .start .declaration = [] :=
    if_neg (fun h => Bool.false_ne_true h.2)
  have hfirst : ∃ rest, (a.render indent).toList = '<' :: rest := by
    rw [Model.render, Markup.render, String.toList_ofList, Model.pieces,
      Markup.chunks, List.flatten_cons, hbreak]
    exact ⟨_, rfl⟩
  obtain ⟨rest, hrest⟩ := hfirst
  rw [SequenceStore.glyphs_toUTF8, hrest]
  rfl

/-- The output leads to its own file. -/
theorem sameFile_output (h : (run r).outcome d = .ok summary) :
    SameFile ((run r).after d) r.output r.output := by
  obtain ⟨m, S, O, -, hdone⟩ := completed_of_run h
  exact ⟨O, hdone.leadsOutput, hdone.leadsOutput⟩

/-- The document is found under every path of the output's file. -/
theorem Completed.entryAt_overwritten (h : Completed r d m S O)
    {path : String} (hs : SameFile ((run r).after d) r.output path) :
    ((run r).after d).entryAt path = .ok (.file (m.document r)) := by
  obtain ⟨p, hp, hpath⟩ := hs
  have hpO : p = O := hp.unique h.leadsOutput
  rw [hpO] at hpath
  rw [hpath.entryAt, h.document]

/-- A store that is the output's file cannot be opened afterwards. -/
theorem overwritten_store_refused (h : (run r).outcome d = .ok summary)
    (hs : SameFile ((run r).after d) r.output r.settings.sequenceStore) :
    ¬ ∃ t, (openAt r.settings.sequenceStore).outcome ((run r).after d)
      = .ok t := by
  obtain ⟨m, S, O, -, hdone⟩ := completed_of_run h
  have hc := hdone.entryAt_overwritten hs
  rintro ⟨t, ht⟩
  rcases SequenceStore.openAt_eq_ok_iff.mp ht with
    ⟨c, entries, hc', hread, -⟩ | ⟨hnone, -⟩
  · rw [hc] at hc'
    cases hc'
    rw [readEntries, Prepared.document, read_document] at hread
    cases hread
  · rw [hc] at hnone
    cases hnone

/-- An input that is the output's file does not hold what it held before. -/
theorem overwritten_input_changed (h : (run r).outcome d = .ok summary)
    (hs : SameFile ((run r).after d) r.output r.input) :
    ((run r).after d).entryAt r.input ≠ d.entryAt r.input := by
  obtain ⟨m, S, O, -, hdone⟩ := completed_of_run h
  obtain ⟨c, solution, hc, hsolution, -⟩ :=
    solution_of_assemble hdone.saved.assembled
  rw [hc, hdone.entryAt_overwritten hs]
  rintro ⟨⟩
  rw [Solver.Solution.ofBytes, Solver.Solution.ofText, Prepared.document,
    read_document] at hsolution
  cases hsolution

/-- A working directory with a store that is a solution as well. -/
def solutionAsStore : Disk :=
  workbench "\x7b\"saphiresolveinput\":[[[\"T\",1],0]]\x7d"

/-- The conversion of that solution, with itself as the store. -/
def intoItself : Request := ⟨"store.json", "o.xml", ⟨"store.json", 0⟩⟩

/-- The smallest solution is converted to the file of its store, which cannot
    be opened afterwards, to its own file, which changes, and with its own file
    as the store, which changes too. -/
theorem coinciding_files_lost :
    ((run (toOutput "store.json")).outcome (workbench "\x7b\x7d")
        = .ok ⟨0, 0, 0, 0, "T-0"⟩ ∧
      ¬ ∃ t, (openAt "store.json").outcome
        ((run (toOutput "store.json")).after (workbench "\x7b\x7d"))
          = .ok t) ∧
    ((run (toOutput "in.json")).outcome (workbench "\x7b\x7d")
        = .ok ⟨0, 0, 0, 0, "T-0"⟩ ∧
      ((run (toOutput "in.json")).after (workbench "\x7b\x7d")).entryAt
          "in.json" ≠ (workbench "\x7b\x7d").entryAt "in.json") ∧
    ((run intoItself).outcome solutionAsStore = .ok ⟨0, 0, 0, 0, "T-0"⟩ ∧
      ((run intoItself).after solutionAsStore).entryAt "store.json"
        ≠ solutionAsStore.entryAt "store.json") := by
  have hstore : (run (toOutput "store.json")).outcome (workbench "\x7b\x7d")
      = .ok ⟨0, 0, 0, 0, "T-0"⟩ := by decide +kernel
  have hinput : (run (toOutput "in.json")).outcome (workbench "\x7b\x7d")
      = .ok ⟨0, 0, 0, 0, "T-0"⟩ := by decide +kernel
  have hrefused := overwritten_store_refused hstore (sameFile_output hstore)
  have hchanged := overwritten_input_changed hinput (sameFile_output hinput)
  exact ⟨⟨hstore, hrefused⟩, ⟨hinput, hchanged⟩, by decide +kernel,
    by decide +kernel⟩

end RiskExchange.Conversion
