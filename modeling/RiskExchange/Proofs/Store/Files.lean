import RiskExchange.Proofs.Disk.Sessions
import RiskExchange.Store.SequenceStore

/-! # Files of stores — what opening finds and what saving leaves

    A store touches the disk in three ways: it is read from the place of its
    path, written there after the directories above have been made, and removed
    from there. Each has one equation, by what stands on the disk. -/

namespace RiskExchange.Store.SequenceStore

open RiskExchange.Disk
open RiskExchange.Disk.Session

variable {s t : SequenceStore} {path : String} {d d' : Disk} {p : Place}

/-! ## Opening -/

/-- What is made of the file of a store. -/
private def reading (path : String) (c : ByteArray) :
    Session StoreError SequenceStore := do
  let entries ← Session.ofNoted (.ofExcept (readEntries path c))
  return ⟨path, entries, true⟩

private theorem outcome_reading (path : String) (c : ByteArray)
    (d : Disk) : (reading path c).outcome d =
      (readEntries path c).map fun entries => ⟨path, entries, true⟩ := by
  rw [reading, outcome_bind, outcome_ofNoted, Journal.Noted.ofExcept]
  cases readEntries path c with
  | error e => rfl
  | ok entries => rfl

private theorem after_reading (path : String) (c : ByteArray) (d : Disk) :
    (reading path c).after d = d := by
  rw [reading, after_bind]
  split <;> rfl

/-- Opening a store leaves the disk as it is. -/
@[simp] theorem after_openAt (path : String) (d : Disk) :
    (openAt path).after d = d := by
  rw [openAt, after_bind_of_ok (outcome_query _ d), after_query]
  cases d.entryAt path with
  | error e =>
      cases e
      case notFound => rfl
      all_goals rfl
  | ok e =>
      cases e with
      | directory => rfl
      | file c => exact after_reading path c d

/-- A store is opened by what is found at its path. -/
private theorem outcome_openAt (path : String) (d : Disk) :
    (openAt path).outcome d = match d.entryAt path with
      | .error .notFound => .ok ⟨path, [], false⟩
      | .error e => .error (.inaccessible path e.message)
      | .ok .directory =>
        .error (.malformed path (.unreadable Failure.isDirectory.message))
      | .ok (.file c) =>
        (readEntries path c).map fun entries => ⟨path, entries, true⟩ := by
  rw [openAt, outcome_bind_of_ok (outcome_query _ d), after_query]
  cases d.entryAt path with
  | error e =>
      cases e
      case notFound => rfl
      all_goals rfl
  | ok e =>
      cases e with
      | directory => rfl
      | file c => exact outcome_reading path c d

/-- A store is opened from the entries in its file, or empty for want of a
    file. -/
theorem openAt_eq_ok_iff : (openAt path).outcome d = .ok s ↔
    (∃ c entries, d.entryAt path = .ok (.file c) ∧
      readEntries path c = .ok entries ∧ s = ⟨path, entries, true⟩) ∨
    (d.entryAt path = .error .notFound ∧ s = ⟨path, [], false⟩) := by
  rw [outcome_openAt]
  cases d.entryAt path with
  | error e =>
      cases e
      case notFound => simp [eq_comm]
      all_goals simp
  | ok e =>
      cases e with
      | directory => simp
      | file c =>
          simp only
          constructor
          · intro h
            cases hr : readEntries path c with
            | error e =>
                rw [hr] at h
                exact nomatch h
            | ok entries =>
                rw [hr] at h
                exact .inl ⟨c, entries, rfl, hr, (Except.ok.inj h).symm⟩
          · rintro (⟨c', entries, hc, hr, rfl⟩ | ⟨hc, -⟩)
            · cases hc
              rw [hr]
              rfl
            · exact nomatch hc

theorem path_of_openAt (h : (openAt path).outcome d = .ok s) :
    s.path = path := by
  rcases openAt_eq_ok_iff.mp h with ⟨c, entries, -, -, rfl⟩ | ⟨-, rfl⟩
  · rfl
  · rfl

/-! ## Saving -/

/-- The paths of the directories above a store, made before it is saved. -/
def pathsAbove (path : String) : List String :=
  match Path.parent? path with
  | none => []
  | some up => Path.ancestors up

theorem changes_prepare (s : SequenceStore) (d : Disk) :
    Changes (Path.mayMake d.here (pathsAbove s.path)) ∅ d
      (s.prepare d).1 := by
  rw [prepare, pathsAbove]
  cases Path.parent? s.path with
  | none => exact Changes.refl _ _ d
  | some up => exact changes_createDirAll d up

theorem keepsDirectories_prepare (s : SequenceStore) (d : Disk) :
    KeepsDirectories d (s.prepare d).1 :=
  (changes_prepare s d).keepsDirectories (fun _ hp => nomatch hp)

/-- The directories above a store are made once and for all. -/
theorem prepare_again (h : s.prepare d = (d', .ok ())) {d'' : Disk}
    (hk : KeepsDirectories d' d'') (ht : t.path = s.path) :
    t.prepare d'' = (d'', .ok ()) := by
  rw [prepare] at h ⊢
  rw [ht]
  cases hup : Path.parent? s.path with
  | none => rfl
  | some up =>
      rw [hup] at h
      exact createDirAll_again h hk

/-- Saving either stops after making directories, or writes the file at the
    place of its path. -/
theorem save_cases (s : SequenceStore) (d : Disk) :
    (∃ e, s.save.outcome d = .error e ∧ s.save.after d = (s.prepare d).1) ∨
    (∃ p, (s.prepare d).2 = .ok () ∧ Leads (s.prepare d).1 s.path p ∧
      (s.prepare d).1.get? p ≠ some .directory ∧
      s.save.outcome d = .ok () ∧
      s.save.after d = (s.prepare d).1.put p (.file s.content)) := by
  rw [save, outcome_mapError, after_mapError]
  cases hp : (s.prepare d).2 with
  | error e =>
      have hstep := (outcome_step s.prepare d).trans hp
      refine .inl ⟨.inaccessible s.path e.message, ?_, ?_⟩
      · rw [outcome_bind_of_error hstep]
        rfl
      · rw [after_bind_of_error hstep]
        rfl
  | ok u =>
      have hstep := (outcome_step s.prepare d).trans hp
      rw [outcome_bind_of_ok hstep, after_bind_of_ok hstep, after_step]
      cases hw : (s.prepare d).1.writeFile s.path s.content with
      | error e =>
          obtain ⟨h1, h2⟩ := change_of_error (f := fun d : Disk =>
            d.writeFile s.path s.content) hw
          exact .inl ⟨.inaccessible s.path e.message, by rw [h1]; rfl, h2⟩
      | ok d1 =>
          obtain ⟨h1, h2⟩ := change_of_ok (f := fun d : Disk =>
            d.writeFile s.path s.content) hw
          obtain ⟨p, hl, hd, heq⟩ := writeFile_eq_ok_iff.mp hw
          exact .inr ⟨p, rfl, hl, hd, by rw [h1]; rfl, by rw [h2, heq]⟩

/-- A store is saved over whatever stands at the place of its path, once the
    directories above are there. -/
theorem save_of_leads (hp : s.prepare d = (d', .ok ()))
    (hl : Leads d' s.path p) (hd : d'.get? p ≠ some .directory) :
    s.save.outcome d = .ok () ∧
      s.save.after d = d'.put p (.file s.content) := by
  rcases save_cases s d with ⟨e, he, -⟩ | ⟨q, -, hq, -, ho, ha⟩
  · -- nothing is left that could fail
    have hw := writeFile_eq_ok_iff.mpr
      ⟨p, hl, hd, (rfl : d'.put p (.file s.content) = _)⟩
    have hstep : (Session.step s.prepare).outcome d = .ok () :=
      congrArg Prod.snd hp
    rw [save, outcome_mapError, outcome_bind_of_ok hstep,
      after_step, hp, (change_of_ok (f := fun d : Disk =>
        d.writeFile s.path s.content) hw).1] at he
    exact nomatch he
  · rw [hp] at hq ha
    rw [hq.unique hl] at ha
    exact ⟨ho, ha⟩

/-! ## Rolling back -/

theorem rollback_of_onDisk (h : s.onDisk = true) : s.rollback = s.save :=
  if_pos h

/-- A store that was not there is removed from the place of its path. -/
theorem rollback_of_new {c : ByteArray} (h : s.onDisk = false)
    (hl : Leads d s.path p) (hc : d.get? p = some (.file c)) :
    s.rollback.outcome d = .ok () ∧ s.rollback.after d = d.erase p := by
  rw [rollback, if_neg (by rw [h]; exact Bool.false_ne_true)]
  refine change_of_ok ?_
  rw [hl.removeFile hc]

end RiskExchange.Store.SequenceStore
