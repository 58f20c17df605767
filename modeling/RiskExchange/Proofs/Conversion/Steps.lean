import RiskExchange.Conversion
import RiskExchange.Proofs.Store.Files

/-! # Steps of a conversion — what each leaves on the disk

    A conversion assembles a model, stages its document, updates the store and
    moves the document into place. Up to the move (`upToMove`) it adds nothing
    but directories, the staged file and the saved store, and takes the staged
    file away again if it fails. The move itself is either done or refused, and
    a refusal rolls the store back. -/

namespace RiskExchange.Conversion

open RiskExchange.CutSet (SequenceLogic)
open RiskExchange.Disk
open RiskExchange.Disk.Session
open RiskExchange.Store (SequenceStore)
open RiskExchange.Store.SequenceStore (pathsAbove)

variable {r : Request} {d d' : Disk} {content : ByteArray}

/-- The paths of the directories that a conversion makes if they are
    missing. -/
def Request.pathsAbove (r : Request) : List String :=
  Path.ancestors (Path.directoryOf r.output)
    ++ SequenceStore.pathsAbove r.settings.sequenceStore

/-- What a conversion has in hand when it comes to move the staged file. -/
structure Prepared where
  assembly : Model.Assembly
  staged : Place
  /-- The store as it was opened. -/
  before : SequenceStore

/-- A conversion up to the move of the staged file. -/
def upToMove (r : Request) : Session ConversionError Prepared := do
  let a ← assemble r
  let staged ← stage r (a.model.render r.settings.indent).toUTF8
  let before ← Session.onFailure (·.erase staged) (updateStore r a.logic)
  return ⟨a, staged, before⟩

/-- The move, and what a conversion reports after it. -/
def finish (r : Request) (m : Prepared) : Session ConversionError Summary := do
  Session.onFailure (·.erase m.staged) do
    place r m.staged m.before
    Session.note (SequenceStore.persistedNotice m.before.path m.assembly.logic)
  Session.note (.wrote r.output)
  return summarize m.assembly

/-- A conversion goes up to the move, and on from there. -/
theorem run_eq (r : Request) : run r = upToMove r >>= finish r := by
  rw [run, upToMove, bind_assoc]
  refine congrArg (assemble r >>= ·) (funext fun a => ?_)
  rw [bind_assoc]
  refine congrArg (stage r _ >>= ·) (funext fun staged => ?_)
  -- the store is saved under the same undoing as the move
  rw [onFailure_bind, bind_assoc, bind_assoc]
  rfl

/-! ## The steps up to the move -/

/-- Assembling a model leaves the disk as it is. -/
@[simp] theorem after_assemble (r : Request) (d : Disk) :
    (assemble r).after d = d := by
  have hload : ((Solver.Solution.load r.input).mapError
      ConversionError.load).after d = d := by
    rw [after_mapError, Solver.Solution.load]
    rw [after_bind_of_ok (outcome_query _ d), after_query]
    cases d.entryAt r.input with
    | error e =>
        cases e
        case notFound => rfl
        all_goals rfl
    | ok e =>
        cases e with
        | directory => rfl
        | file c => rfl
  rw [assemble, after_bind, hload]
  split
  · rfl
  · rw [after_bind_of_ok (outcome_note _ d), after_note, after_mapError,
      after_ofNoted]

/-- Staging stops after making directories, or puts the document under a fresh
    name in the output's directory. -/
theorem stage_cases (r : Request) (content : ByteArray) (d : Disk) :
    (∃ e, (stage r content).outcome d = .error e ∧
      (stage r content).after d
        = (d.createDirAll (Path.directoryOf r.output)).1) ∨
    (∃ d1 p, d.createDirAll (Path.directoryOf r.output) = (d1, .ok ()) ∧
      d1.directoryAt (Path.directoryOf r.output) = .ok p ∧
      (stage r content).outcome d = .ok (stagingPlace r d1 p) ∧
      (stage r content).after d
        = d1.put (stagingPlace r d1 p) (.file content)) := by
  unfold stage Request.stepOutput
  cases hc : d.createDirAll (Path.directoryOf r.output) with
  | mk d1 result =>
      have hafter : ((Session.step
          (·.createDirAll (Path.directoryOf r.output))).mapError
            r.outputError).after d = d1 := congrArg Prod.fst hc
      cases result with
      | error e =>
          have hout : ((Session.step
              (·.createDirAll (Path.directoryOf r.output))).mapError
                r.outputError).outcome d = .error (r.outputError e) := by
            rw [outcome_mapError, outcome_step, hc]
            rfl
          refine .inl ⟨r.outputError e, ?_, ?_⟩
          · rw [outcome_bind_of_error hout]
          · rw [after_bind_of_error hout, hafter]
      | ok u =>
          have hout : ((Session.step
              (·.createDirAll (Path.directoryOf r.output))).mapError
                r.outputError).outcome d = .ok u := by
            rw [outcome_mapError, outcome_step, hc]
            rfl
          rw [outcome_bind_of_ok hout, after_bind_of_ok hout, hafter,
            outcome_mapError, after_mapError, outcome_step, after_step]
          cases hd : d1.directoryAt (Path.directoryOf r.output) with
          | error e => exact .inl ⟨r.outputError e, rfl, rfl⟩
          | ok p => exact .inr ⟨d1, p, rfl, hd, rfl, rfl⟩

/-- Updating the store fails after making directories, or saves the store that
    has been opened, with the new entry in it. -/
theorem updateStore_cases (r : Request) (l : SequenceLogic) (d : Disk) :
    (∃ e, (updateStore r l).outcome d = .error e ∧
      Changes (Path.mayMake d.here
        (SequenceStore.pathsAbove r.settings.sequenceStore)) ∅ d
        ((updateStore r l).after d)) ∨
    (∃ before, (SequenceStore.openAt r.settings.sequenceStore).outcome d
        = .ok before ∧
      (before.insert l).save.outcome d = .ok () ∧
      (updateStore r l).outcome d = .ok before ∧
      (updateStore r l).after d = (before.insert l).save.after d) := by
  rw [updateStore, outcome_mapError, after_mapError]
  cases ho : (SequenceStore.openAt r.settings.sequenceStore).outcome d with
  | error e =>
      refine .inl ⟨.store e, ?_, ?_⟩
      · rw [outcome_bind_of_error ho]
        rfl
      · rw [after_bind_of_error ho, SequenceStore.after_openAt]
        exact Changes.refl _ _ d
  | ok before =>
      rw [outcome_bind_of_ok ho, after_bind_of_ok ho,
        SequenceStore.after_openAt]
      have hpath := SequenceStore.path_of_openAt ho
      rcases SequenceStore.save_cases (before.insert l) d with
        ⟨e, he, ha⟩ | ⟨p, -, -, -, he, -⟩
      · refine .inl ⟨.store e, ?_, ?_⟩
        · rw [outcome_bind_of_error he]
          rfl
        · rw [after_bind_of_error he, ha, ← hpath]
          exact SequenceStore.changes_prepare (before.insert l) d
      · refine .inr ⟨before, rfl, he, ?_, ?_⟩
        · rw [outcome_bind_of_ok he]
          rfl
        · rw [after_bind_of_ok he]
          rfl

/-! ## Fresh places -/

/-- The staged file stands in a place of its own: nothing stood there, and
    neither the output nor the store leads there. -/
structure IsFresh (r : Request) (d : Disk) (t : Place) : Prop where
  ne_nil : t ≠ []
  free : d.get? t = none
  unnamed : ∀ path, path = r.output ∨ path = r.settings.sequenceStore →
    ∀ (d' : Disk), ¬ Leads d' path t

theorem isFresh_stagingPlace (r : Request) (d : Disk) (p : Place) :
    IsFresh r d (stagingPlace r d p) := by
  refine ⟨?_, ?_, ?_⟩
  · exact List.append_ne_nil_of_right_ne_nil p (List.cons_ne_nil _ _)
  · exact get?_freshName d _ p
  · intro path hpath d' hl
    obtain ⟨dir, n, heq, hlen⟩ := hl.length_le
    have hmem : path ∈ [r.output, r.settings.sequenceStore]
        ++ d.entries.flatMap (·.1) := by
      refine List.mem_append_left _ ?_
      rcases hpath with rfl | rfl
      · exact List.mem_cons_self ..
      · exact List.mem_cons_of_mem _ (List.mem_cons_self ..)
    have hlt := length_lt_freshName d _ hmem
    rw [stagingPlace] at heq
    have hn := List.cons.inj (List.append_inj_right' heq rfl)
    rw [← hn.1] at hlen
    omega

/-! ## Up to the move -/

theorem mayMake_output {here : Place} :
    ∀ p ∈ Path.mayMake here (Path.ancestors (Path.directoryOf r.output)),
      p ∈ Path.mayMake here r.pathsAbove := by
  rintro p ⟨path, hmem, hp⟩
  exact ⟨path, List.mem_append_left _ hmem, hp⟩

theorem mayMake_store {here : Place} :
    ∀ p ∈ Path.mayMake here
        (SequenceStore.pathsAbove r.settings.sequenceStore),
      p ∈ Path.mayMake here r.pathsAbove := by
  rintro p ⟨path, hmem, hp⟩
  exact ⟨path, List.mem_append_right _ hmem, hp⟩

theorem changes_directoryOf (r : Request) (d : Disk) :
    Changes (Path.mayMake d.here r.pathsAbove) ∅ d
      (d.createDirAll (Path.directoryOf r.output)).1 :=
  (changes_createDirAll d _).mono mayMake_output (fun _ h => h)

/-- A conversion that fails between its model and the move has made the
    directories above its output as far as they can be made, and besides these
    directories at most. -/
theorem upToMove_error_of_assembled {a : Model.Assembly} {e : ConversionError}
    (ha : (assemble r).outcome d = .ok a)
    (h : (upToMove r).outcome d = .error e) :
    Changes (Path.mayMake d.here r.pathsAbove) ∅
      (d.createDirAll (Path.directoryOf r.output)).1
      ((upToMove r).after d) := by
  rw [upToMove] at h ⊢
  rw [outcome_bind_of_ok ha, after_assemble] at h
  rw [after_bind_of_ok ha, after_assemble]
  rcases stage_cases r (a.model.render r.settings.indent).toUTF8 d with
    ⟨e, he, hafter⟩ | ⟨d1, p, hc, -, ho, hafter⟩
  · rw [after_bind_of_error he, hafter]
    exact Changes.refl _ _ _
  · have hhere := (changes_directoryOf r d).here
    rw [hc] at hhere ⊢
    rw [outcome_bind_of_ok ho, hafter] at h
    rw [after_bind_of_ok ho, hafter]
    have hfresh := isFresh_stagingPlace r d1 p
    generalize stagingPlace r d1 p = t at h hfresh ⊢
    rcases updateStore_cases r a.logic (d1.put t
        (.file (a.model.render r.settings.indent).toUTF8)) with
      ⟨e, he, hch⟩ | ⟨before, -, -, hok, -⟩
    · have hfail := (outcome_onFailure (·.erase t) _ _).trans he
      rw [after_bind_of_error hfail, after_onFailure, he]
      -- the staged file is put and erased; nothing else is touched
      have hall : Changes (Path.mayMake d.here r.pathsAbove) {t} d1
          (((updateStore r a.logic).after (d1.put t (.file
            (a.model.render r.settings.indent).toUTF8))).erase t) := by
        have ht : t ∈ ({t} : Set Place) := Set.mem_singleton t
        have hput := Changes.put (Path.mayMake d.here r.pathsAbove) d1
          hfresh.ne_nil ht (.file
            (a.model.render r.settings.indent).toUTF8)
        rw [here_put, hhere] at hch
        exact (hput.trans
          (hch.mono mayMake_store (fun _ hp => nomatch hp))).trans
            (Changes.erase _ _ ht)
      refine hall.of_same ?_
      intro q hq
      rw [Set.mem_singleton_iff.mp hq, hfresh.free]
      exact .inr (get?_erase_self _ hfresh.ne_nil)
    · have hgo := (outcome_onFailure (·.erase t) _ _).trans hok
      rw [outcome_bind_of_ok hgo] at h
      exact nomatch h

/-- A conversion that fails before the move has made directories at most. -/
theorem upToMove_error {e : ConversionError}
    (h : (upToMove r).outcome d = .error e) :
    Changes (Path.mayMake d.here r.pathsAbove) ∅ d
      ((upToMove r).after d) := by
  cases ha : (assemble r).outcome d with
  | error e =>
      rw [upToMove, after_bind_of_error ha, after_assemble]
      exact Changes.refl _ _ d
  | ok a =>
      exact (changes_directoryOf r d).trans (upToMove_error_of_assembled ha h)

/-- A conversion that comes to the move has assembled its model, staged its
    document, and opened and saved the store. -/
structure Staged (r : Request) (d : Disk) (m : Prepared) (d1 : Disk) :
    Prop where
  assembled : (assemble r).outcome d = .ok m.assembly
  directories : d.createDirAll (Path.directoryOf r.output) = (d1, .ok ())
  fresh : IsFresh r d1 m.staged

/-- The document of a conversion. -/
def Prepared.document (m : Prepared) (r : Request) : ByteArray :=
  (m.assembly.model.render r.settings.indent).toUTF8

theorem upToMove_ok {m : Prepared} (h : (upToMove r).outcome d = .ok m) :
    ∃ d1, Staged r d m d1 ∧
      (SequenceStore.openAt r.settings.sequenceStore).outcome
        (d1.put m.staged (.file (m.document r))) = .ok m.before ∧
      (m.before.insert m.assembly.logic).save.outcome
        (d1.put m.staged (.file (m.document r))) = .ok () ∧
      (upToMove r).after d = (m.before.insert m.assembly.logic).save.after
        (d1.put m.staged (.file (m.document r))) := by
  rw [upToMove] at h ⊢
  obtain ⟨a, ha, h⟩ := outcome_bind_ok h
  rw [after_bind_of_ok ha]
  rw [after_assemble] at h ⊢
  rcases stage_cases r (a.model.render r.settings.indent).toUTF8 d with
    ⟨e, he, -⟩ | ⟨d1, p, hc, -, ho, hafter⟩
  · rw [outcome_bind_of_error he] at h
    exact nomatch h
  · rw [outcome_bind_of_ok ho, hafter] at h
    rw [after_bind_of_ok ho, hafter]
    have hfresh := isFresh_stagingPlace r d1 p
    generalize stagingPlace r d1 p = t at h hfresh ⊢
    rcases updateStore_cases r a.logic (d1.put t
        (.file (a.model.render r.settings.indent).toUTF8)) with
      ⟨e, he, -⟩ | ⟨before, hopen, hsave, hok, hlast⟩
    · have hfail := (outcome_onFailure (·.erase t) _ _).trans he
      rw [outcome_bind_of_error hfail] at h
      exact nomatch h
    · have hgo := (outcome_onFailure (·.erase t) _ _).trans hok
      rw [outcome_bind_of_ok hgo] at h
      rw [after_bind_of_ok hgo, after_onFailure, hok]
      cases h
      exact ⟨d1, ⟨ha, hc, hfresh⟩, hopen, hsave, hlast⟩

/-! ## The move -/

/-- The staged file is moved to the output. -/
theorem place_of_moved {staged : Place} (before : SequenceStore)
    (h : d.moveFile staged r.output = .ok d') :
    (place r staged before).outcome d = .ok () ∧
      (place r staged before).after d = d' := by
  obtain ⟨h1, h2⟩ := change_of_ok (f := fun d : Disk =>
    d.moveFile staged r.output) h
  rw [place, outcome_bind_of_ok (outcome_attempt _ d),
    after_bind_of_ok (outcome_attempt _ d), after_attempt, h1, h2]
  exact ⟨rfl, rfl⟩

/-- If the move is refused the store is rolled back. -/
theorem place_of_refused {staged : Place} (before : SequenceStore)
    {f : Failure} (h : d.moveFile staged r.output = .error f) :
    (place r staged before).outcome d
      = (match before.rollback.outcome d with
        | .error e => .error (.store e)
        | .ok _ => .error (r.outputError f)) ∧
      (place r staged before).after d = before.rollback.after d := by
  obtain ⟨h1, h2⟩ := change_of_error (f := fun d : Disk =>
    d.moveFile staged r.output) h
  rw [place, outcome_bind_of_ok (outcome_attempt _ d),
    after_bind_of_ok (outcome_attempt _ d), after_attempt, h1, h2]
  dsimp only
  rw [outcome_bind_of_ok (outcome_note _ d),
    after_bind_of_ok (outcome_note _ d), after_note]
  cases hr : before.rollback.outcome d with
  | error e =>
      have hm : (before.rollback.mapError ConversionError.store).outcome d
          = .error (.store e) := by
        rw [outcome_mapError, hr]
        rfl
      rw [outcome_bind_of_error hm, after_bind_of_error hm, after_mapError]
      exact ⟨rfl, rfl⟩
  | ok u =>
      have hm : (before.rollback.mapError ConversionError.store).outcome d
          = .ok u := by
        rw [outcome_mapError, hr]
        rfl
      rw [outcome_bind_of_ok hm, after_bind_of_ok hm, after_mapError]
      exact ⟨rfl, rfl⟩

/-! ## The whole conversion -/

/-- A conversion that fails before the move ends there. -/
theorem run_of_error {e : ConversionError}
    (h : (upToMove r).outcome d = .error e) :
    (run r).outcome d = .error e ∧
      (run r).after d = (upToMove r).after d := by
  rw [run_eq]
  exact ⟨outcome_bind_of_error h, after_bind_of_error h⟩

/-- From the move on a conversion ends as the move does, and the staged file
    goes away if it fails. -/
theorem run_of_ok {m : Prepared} (h : (upToMove r).outcome d = .ok m) :
    (run r).outcome d
      = ((place r m.staged m.before).outcome ((upToMove r).after d)).map
          (fun _ => summarize m.assembly) ∧
      (run r).after d
        = match (place r m.staged m.before).outcome
            ((upToMove r).after d) with
          | .ok _ => (place r m.staged m.before).after
              ((upToMove r).after d)
          | .error _ => ((place r m.staged m.before).after
              ((upToMove r).after d)).erase m.staged := by
  rw [run_eq, outcome_bind_of_ok h, after_bind_of_ok h, finish]
  generalize (upToMove r).after d = d1
  cases hp : (place r m.staged m.before).outcome d1 with
  | error e =>
      have hout := (outcome_onFailure (·.erase m.staged) _ _).trans
        (outcome_bind_of_error (f := fun _ => Session.note
          (SequenceStore.persistedNotice m.before.path m.assembly.logic)) hp)
      rw [outcome_bind_of_error hout, after_bind_of_error hout,
        after_onFailure, outcome_bind_of_error hp, after_bind_of_error hp]
      exact ⟨rfl, rfl⟩
  | ok u =>
      have hout := (outcome_onFailure (·.erase m.staged) _ _).trans
        (outcome_bind_of_ok (f := fun _ => Session.note
          (SequenceStore.persistedNotice m.before.path m.assembly.logic)) hp)
      rw [outcome_bind_of_ok hout, after_bind_of_ok hout, after_onFailure,
        outcome_bind_of_ok hp, after_bind_of_ok hp]
      exact ⟨rfl, rfl⟩

end RiskExchange.Conversion
