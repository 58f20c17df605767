import RiskExchange.Proofs.Conversion.Steps

/-! # Outcomes — the three ways in which a conversion ends

    A conversion fails before the move, or its move is refused, or it succeeds.
    In the first case it has made directories at most (`upToMove_error`). In
    the other two the store has been saved at the place of its path (`Saved`);
    a refused move puts the store back (`outcome_of_refused`) and a move that
    is done puts the document at the place of the output
    (`outcome_of_moved`). -/

namespace RiskExchange.Conversion

open RiskExchange.Disk
open RiskExchange.Disk.Session
open RiskExchange.Store (SequenceStore)
open RiskExchange.Store.SequenceStore (readEntries)

variable {r : Request} {d d' : Disk} {m : Prepared} {S : Place}

/-- The disk when the conversion comes to the move: the store is saved at the
    place `S`, the document is staged at a place of its own, and besides these
    two files only directories have been added. -/
structure Saved (r : Request) (d : Disk) (m : Prepared) (S : Place) :
    Prop where
  assembled : (assemble r).outcome d = .ok m.assembly
  path : m.before.path = r.settings.sequenceStore
  changes : Changes (Path.mayMake d.here r.pathsAbove) {S, m.staged} d
    ((upToMove r).after d)
  directories : KeepsDirectories d ((upToMove r).after d)
  leads : Leads ((upToMove r).after d) r.settings.sequenceStore S
  content : ((upToMove r).after d).get? S
    = some (.file (m.before.insert m.assembly.logic).content)
  staged : ((upToMove r).after d).get? m.staged
    = some (.file (m.document r))
  ne_nil : m.staged ≠ []
  free : d.get? m.staged = none
  unnamed : ∀ path, path = r.output ∨ path = r.settings.sequenceStore →
    ∀ (d' : Disk), ¬ Leads d' path m.staged
  /-- The store can be saved again without making directories. -/
  prepared : ∀ (s : SequenceStore), s.path = r.settings.sequenceStore →
    s.prepare ((upToMove r).after d) = ((upToMove r).after d, .ok ())
  /-- A store that was there was read from the file at its place. -/
  onDisk : m.before.onDisk = true → ∃ c, d.get? S = some (.file c) ∧
    readEntries r.settings.sequenceStore c = .ok m.before.entries
  /-- What its path showed before was that file. -/
  shown : ∀ e, d.shown r.settings.sequenceStore = some e →
    m.before.onDisk = true ∧ d.get? S = some e
  /-- A store that was not there is empty. -/
  empty : m.before.onDisk = false → m.before.entries = []

theorem Saved.staged_ne (h : Saved r d m S) : m.staged ≠ S := by
  intro heq
  refine h.unnamed _ (.inr rfl) ((upToMove r).after d) ?_
  rw [heq]
  exact h.leads

/-- A file does not become a directory on the way to the move. -/
theorem Saved.not_directory_of_file (h : Saved r d m S) {p : Place}
    {c : ByteArray} (hp : d.get? p = some (.file c)) :
    ((upToMove r).after d).get? p ≠ some .directory := by
  intro hdir
  by_cases hpS : p = S
  · rw [hpS, h.content] at hdir
    exact nomatch hdir
  · by_cases hpt : p = m.staged
    · rw [hpt, h.free] at hp
      exact nomatch hp
    · have hmem : p ∉ ({S, m.staged} : Set Place) := by
        rintro (h1 | h1)
        · exact hpS h1
        · exact hpt (Set.mem_singleton_iff.mp h1)
      rw [h.changes.get?_eq hmem hp] at hdir
      exact nomatch hdir

/-! ## The course of a conversion up to the move -/

/-- The disk on which the document has been staged. -/
def Prepared.staging (m : Prepared) (r : Request) (d1 : Disk) : Disk :=
  d1.put m.staged (.file (m.document r))

/-- How the disk has come about: directories are made for the output (`d1`),
    the document is staged, directories are made for the store that has been
    opened (`d2`), and the store is written. -/
structure Course (r : Request) (d : Disk) (m : Prepared) (d1 d2 : Disk)
    (S : Place) : Prop where
  assembled : (assemble r).outcome d = .ok m.assembly
  first : Changes (Path.mayMake d.here r.pathsAbove) ∅ d d1
  fresh : IsFresh r d1 m.staged
  opened : (SequenceStore.openAt r.settings.sequenceStore).outcome
    (m.staging r d1) = .ok m.before
  second : Changes (Path.mayMake d.here r.pathsAbove) ∅ (m.staging r d1) d2
  prepared : ∀ (s : SequenceStore), s.path = r.settings.sequenceStore →
    ∀ d', KeepsDirectories d2 d' → s.prepare d' = (d', .ok ())
  leads : Leads d2 r.settings.sequenceStore S
  vacant : d2.get? S ≠ some .directory
  after : (upToMove r).after d
    = d2.put S (.file (m.before.insert m.assembly.logic).content)

theorem course_of_upToMove (h : (upToMove r).outcome d = .ok m) :
    ∃ d1 d2 S, Course r d m d1 d2 S := by
  obtain ⟨d1, hst, hopen, hsave, hlast⟩ := upToMove_ok h
  have hbefore := SequenceStore.path_of_openAt hopen
  have hpath : (m.before.insert m.assembly.logic).path
      = r.settings.sequenceStore := hbefore
  have hfirst := changes_directoryOf r d
  rw [hst.directories] at hfirst
  rcases SequenceStore.save_cases (m.before.insert m.assembly.logic)
      (m.staging r d1) with ⟨e, he, -⟩ | ⟨S, hprep, hlead, hnd, -, hafter⟩
  · rw [Prepared.staging, hsave] at he
    exact nomatch he
  · have hsecond := SequenceStore.changes_prepare
      (m.before.insert m.assembly.logic) (m.staging r d1)
    have hhere : (m.staging r d1).here = d.here := hfirst.here
    rw [hpath, hhere] at hsecond
    rw [hpath] at hlead
    refine ⟨d1, _, S, hst.assembled, hfirst, hst.fresh, hopen,
      hsecond.mono mayMake_store (fun _ hp => hp), ?_, hlead, hnd,
      hlast.trans hafter⟩
    intro s hs d' hk
    exact SequenceStore.prepare_again (Prod.ext rfl hprep) hk
      (hs.trans hpath.symm)

namespace Course

variable {d1 d2 : Disk} (h : Course r d m d1 d2 S)
include h

theorem keeps_first : KeepsDirectories d d1 :=
  h.first.keepsDirectories (fun _ hp => nomatch hp)

theorem keeps_staging : KeepsDirectories d1 (m.staging r d1) :=
  KeepsDirectories.put d1 h.fresh.ne_nil (by simp [h.fresh.free]) _

theorem keeps_second : KeepsDirectories (m.staging r d1) d2 :=
  h.second.keepsDirectories (fun _ hp => nomatch hp)

theorem keeps_after : KeepsDirectories d2 ((upToMove r).after d) := by
  rw [h.after]
  exact KeepsDirectories.put d2 h.leads.ne_nil h.vacant _

theorem directories : KeepsDirectories d ((upToMove r).after d) :=
  ((h.keeps_first.trans h.keeps_staging).trans h.keeps_second).trans
    h.keeps_after

theorem staged_ne : m.staged ≠ S := by
  intro heq
  refine h.fresh.unnamed _ (.inr rfl) d2 ?_
  rw [heq]
  exact h.leads

theorem free : d.get? m.staged = none := by
  cases hg : d.get? m.staged with
  | none => rfl
  | some e =>
      have h1 := h.first.get?_eq (fun hp => nomatch hp) hg
      rw [h.fresh.free] at h1
      exact nomatch h1

/-- Besides the staged file and the store only directories have been added. -/
theorem changes : Changes (Path.mayMake d.here r.pathsAbove) {S, m.staged} d
    ((upToMove r).after d) := by
  have hS : S ∈ ({S, m.staged} : Set Place) := Set.mem_insert ..
  have ht : m.staged ∈ ({S, m.staged} : Set Place) :=
    Set.mem_insert_of_mem _ (Set.mem_singleton _)
  have hnone : ∀ p ∈ (∅ : Set Place), p ∈ ({S, m.staged} : Set Place) :=
    fun _ hp => nomatch hp
  rw [h.after]
  exact ((h.first.mono (fun _ hp => hp) hnone).trans
    (Changes.put _ d1 h.fresh.ne_nil ht _)).trans
      ((h.second.mono (fun _ hp => hp) hnone).trans
        (Changes.put _ d2 h.leads.ne_nil hS _))

theorem get?_staged : ((upToMove r).after d).get? m.staged
    = some (.file (m.document r)) := by
  rw [h.after, get?_put_of_ne d2 h.leads.ne_nil h.staged_ne]
  exact h.second.get?_eq (fun hp => nomatch hp)
    (get?_put_self d1 h.fresh.ne_nil _)

/-- The path of the store leads to one place all along. -/
theorem place_eq {d' : Disk} {p : Place}
    (hk : KeepsDirectories d' (m.staging r d1))
    (hp : Leads d' r.settings.sequenceStore p) : p = S :=
  (hp.mono (hk.trans h.keeps_second)).unique h.leads

/-- The file of the store is opened as it was at first. -/
theorem staging_file_iff {c : ByteArray} :
    (m.staging r d1).get? S = some (.file c) ↔ d.get? S = some (.file c) := by
  rw [Prepared.staging, get?_put_of_ne d1 h.fresh.ne_nil h.staged_ne.symm]
  exact ⟨h.first.file_of_file (fun hp => nomatch hp),
    h.first.get?_eq (fun hp => nomatch hp)⟩

theorem onDisk (hon : m.before.onDisk = true) :
    ∃ c, d.get? S = some (.file c) ∧
      readEntries r.settings.sequenceStore c = .ok m.before.entries := by
  rcases SequenceStore.openAt_eq_ok_iff.mp h.opened with
    ⟨c, entries, hc, hr, heq⟩ | ⟨-, heq⟩
  · obtain ⟨p, hp, hpc⟩ := leads_of_entryAt hc
    rw [h.place_eq (KeepsDirectories.refl _) hp] at hpc
    refine ⟨c, h.staging_file_iff.mp hpc, ?_⟩
    rw [heq]
    exact hr
  · rw [heq] at hon
    exact nomatch hon

/-- What the path of the store shows at first is a file, since the store can be
    opened, and the one that is opened. -/
theorem shown {e : Entry} (he : d.shown r.settings.sequenceStore = some e) :
    m.before.onDisk = true ∧ d.get? S = some e := by
  have hread := shown_eq_some_iff.mp he
  have hkeeps := h.keeps_first.trans h.keeps_staging
  cases e with
  | directory =>
      -- a directory is there when the store is opened too, and is refused
      have hdir := entryAt_directory_mono hkeeps hread
      rcases SequenceStore.openAt_eq_ok_iff.mp h.opened with
        ⟨c, entries, hc, -, -⟩ | ⟨hc, -⟩
      · rw [hdir] at hc
        exact nomatch hc
      · rw [hdir] at hc
        exact nomatch hc
  | file c =>
      obtain ⟨p, hp, hpc⟩ := leads_of_entryAt hread
      have hpS := h.place_eq hkeeps hp
      rw [hpS] at hp hpc
      refine ⟨?_, hpc⟩
      have hfound := (hp.mono hkeeps).entryAt
      rw [h.staging_file_iff.mpr hpc] at hfound
      rcases SequenceStore.openAt_eq_ok_iff.mp h.opened with
        ⟨c', entries, -, -, heq⟩ | ⟨hnone, -⟩
      · rw [heq]
      · rw [hfound] at hnone
        exact nomatch hnone

theorem empty (hoff : m.before.onDisk = false) : m.before.entries = [] := by
  rcases SequenceStore.openAt_eq_ok_iff.mp h.opened with
    ⟨c, entries, -, -, heq⟩ | ⟨-, heq⟩
  · rw [heq] at hoff
    exact nomatch hoff
  · rw [heq]

end Course

theorem saved_of_upToMove (h : (upToMove r).outcome d = .ok m) :
    ∃ S, Saved r d m S := by
  obtain ⟨d1, d2, S, hc⟩ := course_of_upToMove h
  refine ⟨S, hc.assembled, SequenceStore.path_of_openAt hc.opened, hc.changes,
    hc.directories, hc.leads.mono hc.keeps_after, ?_, hc.get?_staged,
    hc.fresh.ne_nil, hc.free, hc.fresh.unnamed, ?_, hc.onDisk,
    fun _ => hc.shown, hc.empty⟩
  · rw [hc.after]
    exact get?_put_self d2 hc.leads.ne_nil _
  · exact fun s hs => hc.prepared s hs _ hc.keeps_after

/-! ## The move is refused -/

/-- What a rollback leaves at the place of the store. -/
def restored (before : SequenceStore) : Option Entry :=
  if before.onDisk then some (.file before.content) else none

/-- Rolling back succeeds where the store has just been saved. -/
theorem Saved.rollback (h : Saved r d m S) :
    m.before.rollback.outcome ((upToMove r).after d) = .ok () ∧
      Changes ∅ {S} ((upToMove r).after d)
        (m.before.rollback.after ((upToMove r).after d)) ∧
      (m.before.rollback.after ((upToMove r).after d)).get? S
        = restored m.before := by
  have hne := h.leads.ne_nil
  have hS : S ∈ ({S} : Set Place) := Set.mem_singleton S
  cases hon : m.before.onDisk with
  | true =>
      -- no directory is missing, and the saved file is there to be replaced
      have hleads := h.leads
      rw [← h.path] at hleads
      obtain ⟨ho, ha⟩ := SequenceStore.save_of_leads
        (h.prepared m.before h.path) hleads (by simp [h.content])
      rw [SequenceStore.rollback_of_onDisk hon, ho, ha, restored, hon]
      exact ⟨rfl, Changes.put _ _ hne hS _, get?_put_self _ hne _⟩
  | false =>
      have hleads := h.leads
      rw [← h.path] at hleads
      obtain ⟨ho, ha⟩ := SequenceStore.rollback_of_new hon hleads h.content
      rw [ho, ha, restored, hon]
      exact ⟨rfl, Changes.erase _ _ hS, get?_erase_self _ hne⟩

section

variable {dr : Disk}
  (hr : Changes ∅ {S} ((upToMove r).after d) dr)
include hr

/-- Erasing the staged file after a rollback leaves a change of the store. -/
theorem Saved.changes_undone (h : Saved r d m S) :
    Changes (Path.mayMake d.here r.pathsAbove) {S} d (dr.erase m.staged) := by
  have hsub : ∀ p ∈ ({S} : Set Place), p ∈ ({S, m.staged} : Set Place) := by
    intro p hp
    exact Set.mem_singleton_iff.mp hp ▸ Set.mem_insert ..
  have ht : m.staged ∈ ({S, m.staged} : Set Place) :=
    Set.mem_insert_of_mem _ (Set.mem_singleton _)
  have hall : Changes (Path.mayMake d.here r.pathsAbove) {S, m.staged} d
      (dr.erase m.staged) :=
    (h.changes.trans (hr.mono (fun _ hp => nomatch hp) hsub)).trans
      (Changes.erase _ _ ht)
  -- nothing stood at the staged file's place, and nothing is left there
  refine hall.of_same ?_
  intro p hp
  rcases hp with rfl | hp
  · exact .inl (Set.mem_singleton p)
  · rw [Set.mem_singleton_iff.mp hp, h.free]
    exact .inr (get?_erase_self dr h.ne_nil)

theorem Saved.keeps_undone (h : Saved r d m S) :
    KeepsDirectories ((upToMove r).after d) (dr.erase m.staged) := by
  have hback : KeepsDirectories ((upToMove r).after d) dr := by
    refine hr.keepsDirectories ?_
    intro p hp hdir
    rw [Set.mem_singleton_iff.mp hp, h.content] at hdir
    exact nomatch hdir
  refine hback.trans (KeepsDirectories.erase dr ?_)
  have hst := hr.get?_eq (fun hp => h.staged_ne
    (Set.mem_singleton_iff.mp hp)) h.staged
  rw [hst]
  exact fun hd => nomatch hd

/-- The undoing makes no directories either. -/
theorem Saved.undone_keeps (h : Saved r d m S)
    (hback : dr.get? S = restored m.before) :
    KeepsDirectories (dr.erase m.staged) ((upToMove r).after d) := by
  refine ⟨(h.keeps_undone hr).here.symm, ?_⟩
  intro p hp
  by_cases hpt : p = m.staged
  · rw [hpt, get?_erase_self dr h.ne_nil] at hp
    exact nomatch hp
  · rw [get?_erase_of_ne dr hpt] at hp
    by_cases hpS : p = S
    · rw [hpS, hback, restored] at hp
      split at hp
      · exact nomatch hp
      · exact nomatch hp
    · rcases hr.keeps p (fun hmem =>
          hpS (Set.mem_singleton_iff.mp hmem)) with h1 | ⟨-, -, h3⟩
      · exact h1.symm.trans hp
      · exact nomatch h3

end

/-- A refused move is what the conversion reports, and the store's place is the
    only one at which a file has changed. -/
theorem outcome_of_refused {f : Failure} (h : (upToMove r).outcome d = .ok m)
    (hS : Saved r d m S)
    (hf : ((upToMove r).after d).moveFile m.staged r.output = .error f) :
    (run r).outcome d = .error (r.outputError f) ∧
      Changes (Path.mayMake d.here r.pathsAbove) {S} d ((run r).after d) ∧
      ((run r).after d).get? S = restored m.before ∧
      KeepsDirectories ((upToMove r).after d) ((run r).after d) ∧
      KeepsDirectories ((run r).after d) ((upToMove r).after d) := by
  obtain ⟨hro, hrc, hrs⟩ := hS.rollback
  obtain ⟨hpo, hpa⟩ := place_of_refused m.before hf
  rw [hro] at hpo
  obtain ⟨ho, ha⟩ := run_of_ok h
  rw [hpo] at ho ha
  rw [hpa] at ha
  dsimp only at ha
  rw [ha]
  refine ⟨ho, hS.changes_undone hrc, ?_, hS.keeps_undone hrc,
    hS.undone_keeps hrc hrs⟩
  rw [get?_erase_of_ne _ (Ne.symm hS.staged_ne)]
  exact hrs

/-! ## The move is done -/

section

variable {O : Place} (hl : Leads ((upToMove r).after d) r.output O)
include hl

theorem Saved.staged_ne_output (h : Saved r d m S) : m.staged ≠ O := by
  intro heq
  refine h.unnamed _ (.inl rfl) ((upToMove r).after d) ?_
  rw [heq]
  exact hl

/-- Once the staged file has been moved nothing but the store and the output
    has changed. -/
theorem Saved.changes_moved (h : Saved r d m S) (c : ByteArray) :
    Changes (Path.mayMake d.here r.pathsAbove) {S, O} d
      ((((upToMove r).after d).erase m.staged).put O (.file c)) := by
  have ht : m.staged ∈ ({S, m.staged, O} : Set Place) := by simp
  have hO : O ∈ ({S, m.staged, O} : Set Place) := by simp
  have hsub : ∀ p ∈ ({S, m.staged} : Set Place),
      p ∈ ({S, m.staged, O} : Set Place) := by
    intro p hp
    rcases hp with rfl | hp
    · exact Set.mem_insert ..
    · exact Set.mem_singleton_iff.mp hp ▸ ht
  have hall : Changes (Path.mayMake d.here r.pathsAbove) {S, m.staged, O} d
      ((((upToMove r).after d).erase m.staged).put O (.file c)) :=
    ((h.changes.mono (fun _ hp => hp) hsub).trans
      (Changes.erase _ _ ht)).trans (Changes.put _ _ hl.ne_nil hO _)
  -- nothing stood at the staged file's place, and nothing is left there
  refine hall.of_same ?_
  intro p hp
  rcases hp with rfl | rfl | hp
  · exact .inl (Set.mem_insert ..)
  · rw [get?_put_of_ne _ hl.ne_nil (h.staged_ne_output hl), h.free]
    exact .inr (get?_erase_self _ h.ne_nil)
  · exact .inl (Set.mem_insert_of_mem _ hp)

theorem Saved.keeps_moved (h : Saved r d m S) (c : ByteArray)
    (hd : ((upToMove r).after d).get? O ≠ some .directory) :
    KeepsDirectories ((upToMove r).after d)
      ((((upToMove r).after d).erase m.staged).put O (.file c)) := by
  have herase : KeepsDirectories ((upToMove r).after d)
      (((upToMove r).after d).erase m.staged) :=
    KeepsDirectories.erase _ (by simp [h.staged])
  refine herase.trans (KeepsDirectories.put _ hl.ne_nil ?_ _)
  intro hdir
  rw [get?_erase_of_ne _ (Ne.symm (h.staged_ne_output hl))] at hdir
  exact hd hdir

end

/-- A conversion that succeeds has put its document at the place of the output,
    and nothing but the store and the output has changed. -/
theorem outcome_of_moved (h : (upToMove r).outcome d = .ok m)
    (hS : Saved r d m S)
    (hm : ((upToMove r).after d).moveFile m.staged r.output = .ok d') :
    ∃ O, (run r).outcome d = .ok (summarize m.assembly) ∧
      Leads ((upToMove r).after d) r.output O ∧
      Changes (Path.mayMake d.here r.pathsAbove) {S, O} d
        ((run r).after d) ∧
      ((run r).after d).get? O = some (.file (m.document r)) ∧
      (S ≠ O → ((run r).after d).get? S
        = some (.file (m.before.insert m.assembly.logic).content)) ∧
      KeepsDirectories ((upToMove r).after d) ((run r).after d) := by
  obtain ⟨hpo, hpa⟩ := place_of_moved m.before hm
  obtain ⟨ho, ha⟩ := run_of_ok h
  rw [hpo] at ho ha
  rw [hpa] at ha
  obtain ⟨c, O, hc, hl, hd, heq⟩ := moveFile_eq_ok_iff.mp hm
  rw [hS.staged] at hc
  cases hc
  rw [heq] at ha
  dsimp only at ha
  rw [ha]
  refine ⟨O, ho, hl, hS.changes_moved hl _, get?_put_self _ hl.ne_nil _, ?_,
    hS.keeps_moved hl _ hd⟩
  intro hSO
  rw [get?_put_of_ne _ hl.ne_nil hSO,
    get?_erase_of_ne _ (Ne.symm hS.staged_ne)]
  exact hS.content

end RiskExchange.Conversion
