import RiskExchange.Proofs.Store.Handles
import RiskExchange.Proofs.Store.Persisting

/-! # Rolling back — what a handle that was worked with restores

    A rollback writes the entries that the handle holds by then, or removes the
    file if it was not there. Whatever is done with other handles, the entries
    of a handle are those it was opened with and what was inserted into it
    since (`first_run`), so the file is as it was found unless something new
    was inserted into that very handle (`agrees_insertAll_iff`). -/

namespace RiskExchange.Store

open RiskExchange.CutSet (SequenceLogic)
open RiskExchange.Disk
open RiskExchange.Disk.Session
open SequenceStore

variable {first s t : SequenceStore} {path : String} {d : Disk} {w : Handles}
  {ls : List SequenceLogic}

/-! ## Many insertions -/

/-- The store with logics inserted one after the other. -/
def SequenceStore.insertAll (s : SequenceStore) (ls : List SequenceLogic) :
    SequenceStore :=
  ls.foldl SequenceStore.insert s

/-- The last of the logics under a key. -/
def lastUnder (ls : List SequenceLogic) (key : String) :
    Option SequenceLogic :=
  ls.reverse.find? (·.key = key)

theorem insertAll_append_singleton (s : SequenceStore)
    (ls : List SequenceLogic) (l : SequenceLogic) :
    s.insertAll (ls ++ [l]) = (s.insertAll ls).insert l :=
  List.foldl_append ..

theorem lastUnder_append_singleton (ls : List SequenceLogic)
    (l : SequenceLogic) (key : String) : lastUnder (ls ++ [l]) key
      = if key = l.key then some l else lastUnder ls key := by
  rw [lastUnder, List.reverse_append, List.reverse_singleton,
    List.singleton_append, List.find?_cons]
  by_cases h : key = l.key
  · simp [h]
  · simp [h, Ne.symm h, lastUnder]

theorem lastUnder_isSome_of_mem {l : SequenceLogic} (h : l ∈ ls) :
    ∃ m, lastUnder ls l.key = some m := by
  refine Option.isSome_iff_exists.mp (List.find?_isSome.mpr ⟨l, ?_, ?_⟩)
  · exact List.mem_reverse.mpr h
  · exact decide_eq_true rfl

@[simp] theorem path_insertAll (s : SequenceStore)
    (ls : List SequenceLogic) : (s.insertAll ls).path = s.path := by
  induction ls generalizing s with
  | nil => rfl
  | cons l rest ih => exact ih (s.insert l)

@[simp] theorem onDisk_insertAll (s : SequenceStore)
    (ls : List SequenceLogic) : (s.insertAll ls).onDisk = s.onDisk := by
  induction ls generalizing s with
  | nil => rfl
  | cons l rest ih => exact ih (s.insert l)

theorem storable_insertAll (h : Storable s.entries)
    (ls : List SequenceLogic) : Storable (s.insertAll ls).entries := by
  induction ls generalizing s with
  | nil => exact h
  | cons l rest ih => exact ih (storable_insert h l)

/-- Inserting under keys that are there adds none. -/
theorem keys_insertAll_of_mem (h : ∀ l ∈ ls, l.key ∈ s.keys) :
    (s.insertAll ls).keys = s.keys := by
  induction ls generalizing s with
  | nil => rfl
  | cons l rest ih =>
      have hl : (s.insert l).keys = s.keys := by
        rw [keys_insert, if_pos (h l (List.mem_cons_self ..))]
      refine (ih ?_).trans hl
      intro m hm
      rw [hl]
      exact h m (List.mem_cons_of_mem _ hm)

/-- What was inserted last under a key is found there. -/
theorem toOption_entry_insertAll (s : SequenceStore)
    (ls : List SequenceLogic) (key : String) :
    ((s.insertAll ls).entry key).toOption = match lastUnder ls key with
      | none => (s.entry key).toOption
      | some l => some (some l.sequences) := by
  -- from the last insertion on: it is the one that counts
  induction ls using List.reverseRecOn with
  | nil => rfl
  | append_singleton ls l ih =>
      rw [insertAll_append_singleton, lastUnder_append_singleton]
      by_cases hkey : key = l.key
      · rw [if_pos hkey, hkey]
        exact toOption_entry_insert_self _ l
      · rw [if_neg hkey, toOption_entry_insert_of_ne hkey]
        exact ih

theorem mem_keys_of_entry {key : String} {sequences}
    (h : s.entry key = .ok (some sequences)) : key ∈ s.keys := by
  by_contra hmem
  have hnone := Json.lookupMember_eq_none_iff.mpr hmem
  rw [entry, hnone] at h
  exact nomatch h

/-- Insertions change nothing exactly if what counts of them was there. -/
theorem agrees_insertAll_iff : Agrees s (s.insertAll ls) ↔
    ∀ key l, lastUnder ls key = some l →
      s.entry key = .ok (some l.sequences) := by
  constructor
  · intro h key l hl
    have hentry := h.entry key
    rw [toOption_entry_insertAll, hl] at hentry
    exact toOption_eq_some_iff.mp hentry.symm
  · intro h
    constructor
    · refine keys_insertAll_of_mem ?_
      intro l hl
      obtain ⟨m, hm⟩ := lastUnder_isSome_of_mem hl
      exact mem_keys_of_entry (h l.key m hm)
    · intro key
      rw [toOption_entry_insertAll]
      cases hl : lastUnder ls key with
      | none => rfl
      | some l => exact (toOption_eq_some_iff.mpr (h key l hl)).symm

/-! ## The entries of the first handle -/

/-- What an action inserts into the first handle. -/
def Action.own? : Action → Option SequenceLogic
  | .insert 0 l => some l
  | _ => none

/-- What actions insert into the first handle, in order. -/
def ownLogics (actions : List Action) : List SequenceLogic :=
  actions.filterMap Action.own?

theorem Handles.on_eq_of_stores {f : SequenceStore → Handles} (i : Nat)
    (hf : ∀ s, (f s).stores[0]? = w.stores[0]?) :
    (w.on i f).stores[0]? = w.stores[0]? := by
  rw [Handles.on]
  cases w.stores[i]? with
  | none => rfl
  | some s => exact hf s

theorem getElem?_zero_append (h : w.stores[0]? = some s)
    (added : List SequenceStore) :
    (w.stores ++ added)[0]? = w.stores[0]? := by
  refine List.getElem?_append_left ?_
  exact (List.getElem?_eq_some_iff.mp h).1

/-- One action: the first handle changes only by what is inserted into it. -/
theorem first_step (h : w.stores[0]? = some s) (a : Action) :
    (w.step path a).stores[0]? = some (s.insertAll a.own?.toList) := by
  cases a with
  | openAgain =>
      rw [Handles.step]
      cases (openAt path).outcome w.disk with
      | error e => exact h
      | ok t => exact (getElem?_zero_append h [t]).trans h
  | clone i =>
      exact (Handles.on_eq_of_stores i
        (fun t => getElem?_zero_append h [t])).trans h
  | insert i l =>
      cases i with
      | zero =>
          rw [Handles.step, Handles.on, h]
          exact List.getElem?_set_self (List.getElem?_eq_some_iff.mp h).1
      | succ i =>
          exact (Handles.on_eq_of_stores (i + 1)
            (fun t => List.getElem?_set_ne (Nat.succ_ne_zero i))).trans h
  | save i =>
      refine (Handles.on_eq_of_stores i ?_).trans h
      exact fun t => rfl
  | rollback i =>
      refine (Handles.on_eq_of_stores i ?_).trans h
      exact fun t => rfl
  | persist l => exact h

theorem first_run (h : w.stores[0]? = some s) (actions : List Action) :
    (w.run path actions).stores[0]?
      = some (s.insertAll (ownLogics actions)) := by
  induction actions generalizing w s with
  | nil => exact h
  | cons a rest ih =>
      have hstep : (w.step path a).stores[0]?
          = some (s.insertAll a.own?.toList) := first_step h a
      have hrest := ih hstep
      refine hrest.trans (congrArg some ?_)
      rw [insertAll, insertAll, ← List.foldl_append]
      refine congrArg (List.foldl SequenceStore.insert s) ?_
      rw [ownLogics, ownLogics, List.filterMap_cons]
      cases a.own? with
      | none => rfl
      | some l => rfl

/-! ## Rolling back -/

/-- A handle remembers that its file was not there. -/
theorem onDisk_of_notFound (hopen : (openAt path).outcome d = .ok first)
    (h : d.entryAt path = .error .notFound) : first.onDisk = false := by
  rcases openAt_eq_ok_iff.mp hopen with ⟨c, entries, hc, -, -⟩ | ⟨-, rfl⟩
  · rw [h] at hc
    cases hc
  · rfl

/-- A handle remembers that its file was there. -/
theorem onDisk_of_file {c : ByteArray}
    (hopen : (openAt path).outcome d = .ok first)
    (h : d.entryAt path = .ok (.file c)) : first.onDisk = true := by
  rcases openAt_eq_ok_iff.mp hopen with ⟨c, entries, -, -, rfl⟩ | ⟨hn, -⟩
  · rfl
  · rw [h] at hn
    cases hn

/-- A store that was not there is not there after its rollback. -/
theorem entryAt_rollback_of_new (h : t.onDisk = false)
    (hok : t.rollback.outcome d = .ok ()) :
    (t.rollback.after d).entryAt t.path = .error .notFound := by
  rw [rollback, if_neg (by rw [h]; exact Bool.false_ne_true)] at hok ⊢
  have hchange := eq_ok_of_change hok
  cases hr : d.removeFile t.path with
  | ok removed =>
      simp only [hr] at hchange
      rw [← Except.ok.inj hchange]
      exact entryAt_of_removeFile hr
  | error e =>
      cases e with
      | notFound =>
          simp only [hr] at hchange
          rw [← Except.ok.inj hchange]
          exact entryAt_of_removeFile_notFound hr
      | _ => simp [hr] at hchange

/-- A store that was there is saved by its rollback. -/
theorem openAt_rollback_of_onDisk (h : t.onDisk = true)
    (hs : Storable t.entries) (hok : t.rollback.outcome d = .ok ()) :
    (t.rollback.after d).entryAt t.path = .ok (.file t.content) ∧
      (openAt t.path).outcome (t.rollback.after d) = .ok t.reopened := by
  rw [rollback_of_onDisk h] at hok ⊢
  obtain ⟨made, p, hready⟩ := ready_of_save hok
  rw [(hready.save rfl).2]
  exact ⟨hready.entryAt_put t.content, hready.openAt_put rfl hs⟩

/-- Whatever is done with a handle, with its clones and with other handles on
    its path: a rollback of the handle that succeeds leaves no file if there
    was none when the handle was opened. If there was one, there is one
    afterwards, and its keys in their order and what is decoded under each are
    as they were when the handle was opened exactly if what was inserted last
    into the handle itself, under each key, was there already. -/
theorem rollback_restores_iff
    (hopen : (openAt path).outcome d = .ok first) (actions : List Action) :
    ∃ t, (Handles.run path ⟨d, [first]⟩ actions).stores[0]? = some t ∧
      ∀ d', d' = (Handles.run path ⟨d, [first]⟩ actions).disk →
      t.rollback.outcome d' = .ok () →
      (d.entryAt path = .error .notFound →
        (t.rollback.after d').entryAt path = .error .notFound) ∧
      ((∃ c, d.entryAt path = .ok (.file c)) →
        (∃ c, (t.rollback.after d').entryAt path = .ok (.file c)) ∧
        ∃ s, (openAt path).outcome (t.rollback.after d') = .ok s ∧
          ((s.keys = first.keys ∧ ∀ key,
              (s.entry key).toOption = (first.entry key).toOption) ↔
            ∀ key l, lastUnder (ownLogics actions) key = some l →
              first.entry key = .ok (some l.sequences))) := by
  refine ⟨_, first_run rfl actions, ?_⟩
  intro d' _ hok
  generalize hown : ownLogics actions = ls at hok ⊢
  have hpath : (first.insertAll ls).path = path := by
    rw [path_insertAll, path_of_openAt hopen]
  constructor
  · intro hmissing
    have hnew : (first.insertAll ls).onDisk = false := by
      rw [onDisk_insertAll, onDisk_of_notFound hopen hmissing]
    rw [← hpath]
    exact entryAt_rollback_of_new hnew hok
  · rintro ⟨c, hc⟩
    have hthere : (first.insertAll ls).onDisk = true := by
      rw [onDisk_insertAll, onDisk_of_file hopen hc]
    obtain ⟨hfile, hreopened⟩ := openAt_rollback_of_onDisk hthere
      (storable_insertAll (storable_of_openAt hopen) ls) hok
    rw [hpath] at hfile hreopened
    refine ⟨⟨_, hfile⟩, _, hreopened, ?_⟩
    -- what is opened agrees with the handle, so the handle is compared
    have hagrees := agrees_reopened (first.insertAll ls)
    rw [← agrees_insertAll_iff]
    constructor
    · rintro ⟨hkeys, hentry⟩
      exact ⟨hagrees.keys.symm.trans hkeys,
        fun key => (hagrees.entry key).symm.trans (hentry key)⟩
    · intro h
      exact ⟨hagrees.keys.trans h.keys,
        fun key => (hagrees.entry key).trans (h.entry key)⟩

/-- The logic of the entry in `oneEntry`. -/
def sameEntry : SequenceLogic := ⟨"A-1", [[.ofTerm 1]]⟩

/-- A clone saves other entries, and the handle inserts what it holds. -/
def cloneSaved : List Action :=
  [.clone 0, .insert 1 ⟨"A-1", []⟩, .insert 1 ⟨"B-1", []⟩, .save 1,
    .insert 0 sameEntry]

/-- The one entry is back after the rollback, and no other is. -/
theorem rollback_restores_iff_cloneSaved :
    ∃ first t s, (openAt "s.json").outcome oneEntry = .ok first ∧
      (Handles.run "s.json" ⟨oneEntry, [first]⟩ cloneSaved).stores[0]?
        = some t ∧
      (openAt "s.json").outcome (t.rollback.after
        (Handles.run "s.json" ⟨oneEntry, [first]⟩ cloneSaved).disk)
        = .ok s ∧
      s.keys = first.keys ∧
      (s.entry "A-1").toOption = (first.entry "A-1").toOption := by
  have hfile : oneEntry.entryAt "s.json"
      = .ok (.file "\x7b\"A-1\":[[\"s1\"]]\x7d".toUTF8) := by
    decide +kernel
  have hfound : ((openAt "s.json").outcome oneEntry).toOption.bind
      (fun s => (s.entry "A-1").toOption)
      = some (some sameEntry.sequences) := by
    decide +kernel
  have hok : ((openAt "s.json").outcome oneEntry).toOption.map
      (fun s => (s.insert sameEntry).rollback.outcome
        (Handles.run "s.json" ⟨oneEntry, [s]⟩ cloneSaved).disk)
      = some (.ok ()) := by
    decide +kernel
  cases hopen : (openAt "s.json").outcome oneEntry with
  | error e =>
      rw [hopen] at hfound
      exact nomatch hfound
  | ok first =>
      rw [hopen] at hfound hok
      obtain ⟨t, ht, hall⟩ := rollback_restores_iff hopen cloneSaved
      cases ht.symm.trans (first_run rfl cloneSaved)
      obtain ⟨-, h⟩ := hall _ rfl (Option.some.inj hok)
      obtain ⟨-, s, hs, hiff⟩ := h ⟨_, hfile⟩
      obtain ⟨hkeys, hentry⟩ := hiff.mpr (by
        intro key l hl
        have hlast := lastUnder_append_singleton [] sameEntry key
        by_cases hkey : key = sameEntry.key
        · cases (hlast.trans (if_pos hkey)).symm.trans hl
          rw [hkey]
          exact toOption_eq_some_iff.mp hfound
        · cases (hlast.trans (if_neg hkey)).symm.trans hl)
      exact ⟨first, _, s, rfl, ht, hs, hkeys, hentry "A-1"⟩

/-- A disk with nothing but an empty store. -/
def noEntries : Disk where
  entries := [(["s.json"], .file "\x7b\x7d".toUTF8)]
  here := []

/-- What is inserted into the handle itself stays in the file. -/
theorem own_entry_survives_rollback :
    (openAt "s.json").outcome noEntries = .ok ⟨"s.json", [], true⟩ ∧
    ∃ t s,
      (Handles.run "s.json" ⟨noEntries, [⟨"s.json", [], true⟩]⟩
        [.insert 0 ⟨"T-1", []⟩]).stores[0]? = some t ∧
      t.rollback.outcome noEntries = .ok () ∧
      (openAt "s.json").outcome (t.rollback.after noEntries) = .ok s ∧
      s.keys = ["T-1"] := by
  have hopen : (openAt "s.json").outcome noEntries
      = .ok ⟨"s.json", [], true⟩ :=
    openAt_eq_ok_iff.mpr (.inl ⟨_, [], rfl, rfl, rfl⟩)
  have hok : (SequenceStore.insert ⟨"s.json", [], true⟩
      ⟨"T-1", []⟩).rollback.outcome noEntries = .ok () := by
    decide +kernel
  obtain ⟨-, hreopened⟩ := openAt_rollback_of_onDisk rfl
    (storable_insert (storable_of_openAt hopen) _) hok
  exact ⟨hopen, _, _, rfl, hok, hreopened, rfl⟩

end RiskExchange.Store
