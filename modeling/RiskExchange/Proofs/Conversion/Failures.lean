import RiskExchange.Proofs.Conversion.Outcomes

/-! # Failures — what a failed conversion leaves behind

    A conversion that fails before the move leaves every file as it was and
    makes no new one (`error_keeps_files`). When it is the move that is refused
    the store is written once more, from the entries that were read
    (`refused_move_restores_iff`): its bytes are the old ones exactly when
    those were what printing the entries gives. -/

namespace RiskExchange.Conversion

open RiskExchange.Disk
open RiskExchange.Disk.Session
open RiskExchange.Store (SequenceStore)
open RiskExchange.Store.SequenceStore (readEntries)

variable {r : Request} {d d' : Disk} {m : Prepared}

/-! ## Before the move -/

/-- The conversion has come to the move of the staged file, and the move has
    been refused. -/
def MoveRefused (r : Request) (d : Disk) : Prop :=
  ∃ m f, (upToMove r).outcome d = .ok m ∧
    ((upToMove r).after d).moveFile m.staged r.output = .error f

theorem moveRefused_iff : MoveRefused r d ↔
    ((upToMove r).outcome d).toOption.any (fun m =>
      (((upToMove r).after d).moveFile m.staged r.output).toOption.isNone)
        = true := by
  constructor
  · rintro ⟨m, f, hu, hf⟩
    rw [hu]
    change (((upToMove r).after d).moveFile m.staged
      r.output).toOption.isNone = true
    rw [hf]
    rfl
  · intro h
    cases hu : (upToMove r).outcome d with
    | error e =>
        rw [hu] at h
        exact nomatch h
    | ok m =>
        rw [hu] at h
        change (((upToMove r).after d).moveFile m.staged
          r.output).toOption.isNone = true at h
        cases hf : ((upToMove r).after d).moveFile m.staged r.output with
        | error f => exact ⟨m, f, hu, hf⟩
        | ok d' =>
            rw [hf] at h
            exact nomatch h

instance (r : Request) (d : Disk) : Decidable (MoveRefused r d) :=
  decidable_of_iff _ moveRefused_iff.symm

/-- A failure other than that of the move comes before it. -/
theorem upToMove_error_of_run {e : ConversionError}
    (h : (run r).outcome d = .error e) (hm : ¬ MoveRefused r d) :
    (upToMove r).outcome d = .error e := by
  cases hu : (upToMove r).outcome d with
  | error e' =>
      have hrun := (run_of_error hu).1
      rw [h] at hrun
      rw [Except.error.inj hrun]
  | ok m =>
      cases hf : ((upToMove r).after d).moveFile m.staged r.output with
      | error f => exact absurd ⟨m, f, hu, hf⟩ hm
      | ok d' =>
          obtain ⟨S, hS⟩ := saved_of_upToMove hu
          obtain ⟨O, ho, -⟩ := outcome_of_moved hu hS hf
          rw [h] at ho
          exact nomatch ho

/-- A conversion that fails before the move leaves the files of the disk as
    they are, makes none and takes no directory away. -/
theorem error_keeps_files {e : ConversionError}
    (h : (run r).outcome d = .error e) (hm : ¬ MoveRefused r d) :
    (∀ p c, ((run r).after d).get? p = some (.file c) ↔
      d.get? p = some (.file c)) ∧
    (∀ p, d.get? p = some .directory →
      ((run r).after d).get? p = some .directory) := by
  have hu := upToMove_error_of_run h hm
  have hc := upToMove_error hu
  rw [(run_of_error hu).2]
  have hnot : ∀ p, p ∉ (∅ : Set Place) := fun p hp => nomatch hp
  refine ⟨?_, ?_⟩
  · intro p c
    constructor
    · intro hp
      exact hc.file_of_file (hnot p) hp
    · intro hp
      exact hc.get?_eq (hnot p) hp
  · intro p hp
    exact hc.get?_eq (hnot p) hp

/-! ## The smallest solution on a disk -/

/-- A working directory with the smallest solver file, a store of the given
    text and a directory. -/
def workbench (store : String) : Disk where
  entries := [(["w"], .directory),
    (["w", "in.json"], .file "[[[[\"T\",1],0]]]".toUTF8),
    (["w", "store.json"], .file store.toUTF8),
    (["w", "out"], .directory)]
  here := ["w"]

/-- The conversion of that file to an output. -/
def toOutput (output : String) : Request :=
  ⟨"in.json", output, ⟨"store.json", 0⟩⟩

/-- A store that is no object is found out once the document is staged; the
    staged file is gone afterwards. -/
theorem error_keeps_files_of_array :
    ∃ e, (run (toOutput "new/out.xml")).outcome (workbench "[]") = .error e ∧
      (∀ p c, ((run (toOutput "new/out.xml")).after (workbench "[]")).get? p
        = some (.file c) ↔ (workbench "[]").get? p = some (.file c)) := by
  have h : (run (toOutput "new/out.xml")).outcome (workbench "[]")
      = .error (.store (.notAnObject "store.json")) := by decide +kernel
  have hm : ¬ MoveRefused (toOutput "new/out.xml") (workbench "[]") := by
    decide +kernel
  exact ⟨_, h, (error_keeps_files h hm).1⟩

/-! ## The refused move -/

/-- Where a move is refused the output shows no file, before or after. -/
private theorem output_shows_no_file {f : Failure} {S : Place}
    (hS : Saved r d m S)
    (hf : ((upToMove r).after d).moveFile m.staged r.output = .error f)
    (hk : KeepsDirectories d' ((upToMove r).after d))
    (hfile : ∀ p c, d'.get? p = some (.file c) →
      ((upToMove r).after d).get? p ≠ some .directory) (c : ByteArray) :
    d'.shown r.output ≠ some (.file c) := by
  intro hc
  obtain ⟨O, hO, hOc⟩ := leads_of_entryAt (shown_eq_some_iff.mp hc)
  -- a file can be replaced, so the move would not have been refused
  have hok := moveFile_eq_ok_iff.mpr
    ⟨_, O, hS.staged, hO.mono hk, hfile O c hOc, rfl⟩
  rw [hf] at hok
  exact nomatch hok

private theorem shown_eq_shown_iff {path : String}
    (h : ∀ c, d.shown path ≠ some (.file c))
    (h' : ∀ c, d'.shown path ≠ some (.file c)) :
    d'.shown path = d.shown path ↔
      d'.isDirectory path = d.isDirectory path := by
  have hdir (x : Disk) (hx : ∀ c, x.shown path ≠ some (.file c)) :
      x.shown path = if x.isDirectory path then some .directory else none := by
    cases hs : x.shown path with
    | none =>
        have hnot : ¬ x.isDirectory path = true := by
          intro hd
          have hsome := shown_eq_some_iff.mpr (isDirectory_iff.mp hd)
          rw [hs] at hsome
          exact nomatch hsome
        rw [if_neg hnot]
    | some e =>
        cases e with
        | file c => exact absurd hs (hx c)
        | directory =>
            rw [if_pos (isDirectory_iff.mpr (shown_eq_some_iff.mp hs))]
  rw [hdir d h, hdir d' h']
  cases d.isDirectory path <;> cases d'.isDirectory path <;> simp

/-- A refused move leaves at the store's path what it showed before exactly if
    a store that was there is spelled as its entries are printed. -/
private theorem store_shown_iff {f : Failure} {S : Place}
    (hu : (upToMove r).outcome d = .ok m) (hS : Saved r d m S)
    (hf : ((upToMove r).after d).moveFile m.staged r.output = .error f) :
    ((run r).after d).shown r.settings.sequenceStore
        = d.shown r.settings.sequenceStore ↔
      (m.before.onDisk = true → d.shown r.settings.sequenceStore
        = some (.file m.before.content)) := by
  obtain ⟨-, -, hrest, hk, -⟩ := outcome_of_refused hu hS hf
  have hafter := (hS.leads.mono hk).shown
  rw [hafter, hrest, restored]
  cases hon : m.before.onDisk with
  | true =>
      rw [if_pos rfl]
      exact ⟨fun h _ => h.symm, fun h => (h rfl).symm⟩
  | false =>
      -- nothing is left where nothing was shown
      refine ⟨fun _ h => absurd h Bool.false_ne_true, fun _ => ?_⟩
      cases hs : d.shown r.settings.sequenceStore with
      | none => rfl
      | some e =>
          rw [(hS.shown e hs).1] at hon
          cases hon

/-- A refused move leaves at the output's path what it showed before unless
    the directories on the way to the store or to the output lead there. -/
private theorem output_shown_iff {f : Failure} {S : Place}
    (hu : (upToMove r).outcome d = .ok m) (hS : Saved r d m S)
    (hf : ((upToMove r).after d).moveFile m.staged r.output = .error f) :
    ((run r).after d).shown r.output = d.shown r.output ↔
      (((upToMove r).after d).isDirectory r.output = true →
        d.isDirectory r.output = true) := by
  obtain ⟨-, -, -, hk, hk'⟩ := outcome_of_refused hu hS hf
  have hbefore := output_shows_no_file hS hf hS.directories
    (fun p c hp => hS.not_directory_of_file hp)
  have hlater := output_shows_no_file hS hf hk' (by
    intro p c hp hdir
    rw [hk.keeps p hdir] at hp
    exact nomatch hp)
  rw [shown_eq_shown_iff hbefore hlater]
  constructor
  · intro h hd
    rw [← h]
    exact isDirectory_mono hk hd
  · intro h
    cases hd : d.isDirectory r.output with
    | true => exact isDirectory_mono hk (isDirectory_mono hS.directories hd)
    | false =>
        cases ha : ((run r).after d).isDirectory r.output with
        | false => rfl
        | true =>
            rw [h (isDirectory_mono hk' ha)] at hd
            exact nomatch hd

/-- A conversion whose move is refused reports the refusal, and it leaves at
    its store and its output what they showed before exactly if a store that
    was there is spelled as its entries are printed and the directories that
    were made are not at the output. -/
theorem refused_move_restores_iff {f : Failure}
    (hu : (upToMove r).outcome d = .ok m)
    (hf : ((upToMove r).after d).moveFile m.staged r.output = .error f) :
    (run r).outcome d = .error (r.outputError f) ∧
    ((((run r).after d).shown r.settings.sequenceStore
          = d.shown r.settings.sequenceStore ∧
        ((run r).after d).shown r.output = d.shown r.output) ↔
      (m.before.onDisk = true → d.shown r.settings.sequenceStore
        = some (.file m.before.content)) ∧
      (((upToMove r).after d).isDirectory r.output = true →
        d.isDirectory r.output = true)) ∧
    (∀ c, d.shown r.settings.sequenceStore = some (.file c) →
      m.before.onDisk = true ∧
      readEntries r.settings.sequenceStore c = .ok m.before.entries) := by
  obtain ⟨S, hS⟩ := saved_of_upToMove hu
  obtain ⟨hout, -⟩ := outcome_of_refused hu hS hf
  refine ⟨hout, and_congr (store_shown_iff hu hS hf)
    (output_shown_iff hu hS hf), ?_⟩
  intro c hc
  obtain ⟨hon, hcS⟩ := hS.shown _ hc
  obtain ⟨c', hc', hread⟩ := hS.onDisk hon
  rw [hcS] at hc'
  cases hc'
  exact ⟨hon, hread⟩

/-- A store spelled as its entries are printed comes back. -/
theorem refused_move_restores_printed :
    ((run (toOutput "out")).after (workbench "\x7b\x7d")).shown "store.json"
      = (workbench "\x7b\x7d").shown "store.json" := by
  have hm : MoveRefused (toOutput "out") (workbench "\x7b\x7d") := by
    decide +kernel
  obtain ⟨m, f, hu, hf⟩ := hm
  obtain ⟨-, hiff, hread⟩ := refused_move_restores_iff hu hf
  have hstore : (workbench "\x7b\x7d").shown "store.json"
      = some (.file "\x7b\x7d".toUTF8) := by decide +kernel
  have hentries : (readEntries "store.json" "\x7b\x7d".toUTF8).toOption.map
      (·.length) = some 0 := by decide +kernel
  have hempty : m.before.entries = [] := by
    have h := (hread _ hstore).2
    change readEntries "store.json" _ = _ at h
    rw [h] at hentries
    exact List.length_eq_zero_iff.mp (Option.some.inj hentries)
  have hcontent : m.before.content = "\x7b\x7d".toUTF8 := by
    rw [SequenceStore.content, hempty]
    decide +kernel
  refine (hiff.mpr ⟨fun _ => ?_, fun _ => ?_⟩).1
  · rw [hcontent]
    exact hstore
  · decide +kernel

/-- A store with a space in it comes back without the space. -/
theorem refused_move_drops_space :
    MoveRefused (toOutput "out") (workbench "\x7b \x7d") ∧
      (run (toOutput "out")).outcome (workbench "\x7b \x7d")
        = .error (.output "out" "Is a directory (os error 21)") ∧
      (workbench "\x7b \x7d").shown "store.json"
        = some (.file "\x7b \x7d".toUTF8) ∧
      ((run (toOutput "out")).after (workbench "\x7b \x7d")).shown "store.json"
        = some (.file "\x7b\x7d".toUTF8) := by
  refine ⟨?_, ?_, ?_, ?_⟩
  · decide +kernel
  · decide +kernel
  · decide +kernel
  · decide +kernel

end RiskExchange.Conversion
