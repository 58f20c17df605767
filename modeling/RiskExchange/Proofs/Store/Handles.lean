import RiskExchange.Proofs.Store.Entries
import RiskExchange.Proofs.Store.Files

/-! # Handles — many stores in hand on one file

    Stores in hand are copies, so a stale one may overwrite what another has
    saved. What nobody inserts is safe from that: `Faithful` says that a store
    agrees with the first one on every key that is never inserted, and every
    step on any number of handles keeps the file and all handles faithful
    (`AllSound.run`). -/

namespace RiskExchange.Store

open RiskExchange.CutSet (SequenceLogic)
open RiskExchange.Disk
open RiskExchange.Disk.Session
open RiskExchange.Json (rereadMembers)
open SequenceStore

/-! ## Steps -/

/-- A disk and the handles on the store of one path. -/
structure Handles where
  disk : Disk
  stores : List SequenceStore

/-- What may be done with the handles, by their positions, or with the file. -/
inductive Action where
  | openAgain
  | clone (i : Nat)
  | insert (i : Nat) (l : SequenceLogic)
  | save (i : Nat)
  | rollback (i : Nat)
  | persist (l : SequenceLogic)

/-- The key that an action inserts under. -/
def Action.key? : Action → Option String
  | .insert _ l | .persist l => some l.key
  | _ => none

namespace Handles

/-- Does something with the handle at a position, if it is there. -/
def on (w : Handles) (i : Nat) (f : SequenceStore → Handles) : Handles :=
  match w.stores[i]? with
  | some s => f s
  | none => w

/-- One action. A store that cannot be opened gives no handle. -/
def step (path : String) (w : Handles) : Action → Handles
  | .openAgain =>
    match (openAt path).outcome w.disk with
    | .ok s => { w with stores := w.stores ++ [s] }
    | .error _ => w
  | .clone i => w.on i fun s => { w with stores := w.stores ++ [s] }
  | .insert i l =>
    w.on i fun s => { w with stores := w.stores.set i (s.insert l) }
  | .save i => w.on i fun s => { w with disk := s.save.after w.disk }
  | .rollback i => w.on i fun s => { w with disk := s.rollback.after w.disk }
  | .persist l => { w with disk := (SequenceStore.persist path l).after w.disk }

/-- Actions one after the other. -/
def run (path : String) (w : Handles) (actions : List Action) : Handles :=
  actions.foldl (step path) w

end Handles

/-- The keys that actions insert under. -/
def insertedKeys (actions : List Action) : List String :=
  actions.filterMap Action.key?

/-! ## Faithful stores -/

variable {kept : String → Bool} {first s t : SequenceStore} {path : String}
  {d : Disk} {w : Handles}

/-- The store agrees with the first one on the keys that are kept: they are the
    same in the same order, and what is decoded under each is the same. -/
structure Faithful (kept : String → Bool) (first s : SequenceStore) :
    Prop where
  keys : s.keys.filter kept = first.keys.filter kept
  entry : ∀ key, kept key = true →
    (s.entry key).toOption = (first.entry key).toOption

theorem Faithful.refl (kept : String → Bool) (s : SequenceStore) :
    Faithful kept s s := ⟨rfl, fun _ _ => rfl⟩

/-- A key that is not kept may be inserted. -/
theorem Faithful.insert (h : Faithful kept first s) {l : SequenceLogic}
    (hl : kept l.key = false) : Faithful kept first (s.insert l) := by
  constructor
  · rw [keys_insert]
    by_cases hmem : l.key ∈ s.keys
    · rw [if_pos hmem]
      exact h.keys
    · rw [if_neg hmem, List.filter_append, h.keys,
        List.filter_singleton, hl]
      exact List.append_nil _
  · intro key hkey
    have hne : key ≠ l.key := by
      intro heq
      rw [heq, hl] at hkey
      exact nomatch hkey
    rw [toOption_entry_insert_of_ne hne]
    exact h.entry key hkey

/-- A store may be replaced by one that agrees with it. -/
theorem Faithful.agrees (h : Faithful kept first s) (ht : Agrees s t) :
    Faithful kept first t := by
  constructor
  · rw [ht.keys]
    exact h.keys
  · intro key hkey
    rw [ht.entry]
    exact h.entry key hkey

theorem Faithful.mem_keys_iff (h : Faithful kept first s) {key : String}
    (hkey : kept key = true) : key ∈ s.keys ↔ key ∈ first.keys := by
  have hmem (u : SequenceStore) : key ∈ u.keys ↔ key ∈ u.keys.filter kept := by
    rw [List.mem_filter]
    exact ⟨fun h => ⟨h, hkey⟩, fun h => h.1⟩
  rw [hmem s, hmem first, h.keys]

/-! ## Sound handles and files -/

/-- A handle on the store of a path that was there when it was opened. -/
structure Sound (kept : String → Bool) (first : SequenceStore)
    (path : String) (s : SequenceStore) : Prop where
  path : s.path = path
  onDisk : s.onDisk = true
  storable : Storable s.entries
  faithful : Faithful kept first s

theorem Sound.insert (h : Sound kept first path s) {l : SequenceLogic}
    (hl : kept l.key = false) : Sound kept first path (s.insert l) :=
  ⟨h.path, h.onDisk, storable_insert h.storable l, h.faithful.insert hl⟩

/-- The file of a sound store stands at the place of the path. -/
def SoundFile (kept : String → Bool) (first : SequenceStore) (path : String)
    (d : Disk) : Prop :=
  ∃ p c entries, Leads d path p ∧ d.get? p = some (.file c) ∧
    readEntries path c = .ok entries ∧
    Faithful kept first ⟨path, entries, true⟩

/-- The file of a store that can be opened is sound for that store. -/
theorem soundFile_of_openAt {c : ByteArray}
    (hfile : d.entryAt path = .ok (.file c))
    (hopen : (SequenceStore.openAt path).outcome d = .ok first) :
    SoundFile kept first path d := by
  rcases openAt_eq_ok_iff.mp hopen with ⟨c', entries, hc', hr, heq⟩ | ⟨hn, -⟩
  · obtain ⟨p, hl, hc⟩ := leads_of_entryAt hc'
    refine ⟨p, c', entries, hl, hc, hr, ?_⟩
    rw [heq]
    exact Faithful.refl _ _
  · rw [hfile] at hn
    exact nomatch hn

/-- What is opened from a sound file is a sound store. -/
theorem SoundFile.openAt (h : SoundFile kept first path d) :
    ∃ s, (openAt path).outcome d = .ok s ∧ Sound kept first path s := by
  obtain ⟨p, c, entries, hl, hc, hr, hf⟩ := h
  have he : d.entryAt path = .ok (.file c) := by
    rw [hl.entryAt, hc]
  exact ⟨⟨path, entries, true⟩,
    openAt_eq_ok_iff.mpr (.inl ⟨c, entries, he, hr, rfl⟩),
    rfl, rfl, storable_of_readEntries hr, hf⟩

/-- Saving a sound store leaves a sound file, whether it succeeds or not. -/
theorem SoundFile.save (h : SoundFile kept first path d)
    (hs : Sound kept first path s) :
    SoundFile kept first path (s.save.after d) := by
  obtain ⟨p, c, entries, hl, hc, hr, hf⟩ := h
  have hchanges := changes_prepare s d
  have hkeeps := keepsDirectories_prepare s d
  rcases save_cases s d with ⟨e, -, ha⟩ | ⟨q, -, hq, -, -, ha⟩
  · -- nothing has been written, and files stay while directories are made
    rw [ha]
    exact ⟨p, c, entries, hl.mono hkeeps,
      hchanges.get?_eq (fun hp => nomatch hp) hc, hr, hf⟩
  · rw [hs.path] at hq
    -- the directories that are made do not lead the path elsewhere
    have hqp : q = p := hq.unique (hl.mono hkeeps)
    have hfile : (s.prepare d).1.get? p = some (.file c) :=
      hchanges.get?_eq (fun hp => nomatch hp) hc
    rw [hqp] at hq ha
    have hput : KeepsDirectories (s.prepare d).1 (s.save.after d) := by
      rw [ha]
      refine KeepsDirectories.put _ hq.ne_nil ?_ _
      rw [hfile]
      exact fun hd => nomatch hd
    refine ⟨p, s.content, rereadMembers s.entries, hq.mono hput, ?_,
      readEntries_content hs.storable,
      hs.faithful.agrees (agrees_of_reread rfl)⟩
    rw [ha, get?_put_self _ hq.ne_nil]

theorem SoundFile.persist (h : SoundFile kept first path d)
    {l : SequenceLogic} (hl : kept l.key = false) :
    SoundFile kept first path ((SequenceStore.persist path l).after d) := by
  obtain ⟨s, ho, hs⟩ := h.openAt
  have hsaved := h.save (hs.insert hl)
  rw [SequenceStore.persist, after_bind_of_ok ho, after_openAt, after_bind]
  cases (s.insert l).save.outcome d with
  | error e => exact hsaved
  | ok u => exact hsaved

/-! ## Runs -/

/-- The file and all handles are sound. -/
structure AllSound (kept : String → Bool) (first : SequenceStore)
    (path : String) (w : Handles) : Prop where
  file : SoundFile kept first path w.disk
  stores : ∀ s ∈ w.stores, Sound kept first path s

theorem AllSound.on (h : AllSound kept first path w) (i : Nat)
    {f : SequenceStore → Handles}
    (hf : ∀ s, Sound kept first path s → AllSound kept first path (f s)) :
    AllSound kept first path (w.on i f) := by
  rw [Handles.on]
  cases hs : w.stores[i]? with
  | none => exact h
  | some s => exact hf s (h.stores s (List.mem_of_getElem? hs))

/-- A sound store may be added to the handles. -/
theorem AllSound.add (h : AllSound kept first path w)
    (hs : Sound kept first path s) :
    AllSound kept first path { w with stores := w.stores ++ [s] } := by
  refine ⟨h.file, ?_⟩
  intro t ht
  rcases List.mem_append.mp ht with h1 | h1
  · exact h.stores t h1
  · rw [List.mem_singleton.mp h1]
    exact hs

/-- An action that inserts under no kept key keeps everything sound. -/
theorem AllSound.step (h : AllSound kept first path w) {a : Action}
    (ha : ∀ key, a.key? = some key → kept key = false) :
    AllSound kept first path (w.step path a) := by
  cases a with
  | openAgain =>
      obtain ⟨s, ho, hs⟩ := h.file.openAt
      unfold Handles.step
      dsimp only
      rw [ho]
      exact h.add hs
  | clone i => exact h.on i (fun s hs => h.add hs)
  | insert i l =>
      refine h.on i (fun s hs => ⟨h.file, ?_⟩)
      intro t ht
      rcases List.mem_or_eq_of_mem_set ht with h1 | h1
      · exact h.stores t h1
      · rw [h1]
        exact hs.insert (ha l.key rfl)
  | save i =>
      exact h.on i (fun s hs => ⟨h.file.save hs, h.stores⟩)
  | rollback i =>
      refine h.on i (fun s hs => ⟨?_, h.stores⟩)
      -- the file was there when the handle was opened, so it is rewritten
      rw [rollback_of_onDisk hs.onDisk]
      exact h.file.save hs
  | persist l => exact ⟨h.file.persist (ha l.key rfl), h.stores⟩

theorem AllSound.run (h : AllSound kept first path w) {actions : List Action}
    (ha : ∀ key ∈ insertedKeys actions, kept key = false) :
    AllSound kept first path (w.run path actions) := by
  -- from the first action on, so the handles at the start are any sound ones
  induction actions generalizing w with
  | nil => exact h
  | cons a rest ih =>
      refine ih (h.step ?_) ?_
      · intro key hkey
        refine ha key (List.mem_filterMap.mpr ⟨a, ?_, hkey⟩)
        exact List.mem_cons_self ..
      · intro key hkey
        obtain ⟨b, hb, hk⟩ := List.mem_filterMap.mp hkey
        exact ha key (List.mem_filterMap.mpr
          ⟨b, List.mem_cons_of_mem _ hb, hk⟩)

/-! ## What is never inserted -/

/-- The keys that are not inserted under by some actions. -/
def untouched (actions : List Action) (key : String) : Bool :=
  key ∉ insertedKeys actions

/-- Whatever is done with any number of handles on a file that can be opened,
    the file can be opened afterwards, and a store opened from it then, like
    every handle, has the keys of the first store that were never inserted
    under, in their order, and each of these is decoded, or refused, as in the
    first store. -/
theorem untouched_entries_survive {c : ByteArray}
    (hfile : d.entryAt path = .ok (.file c))
    (hopen : (openAt path).outcome d = .ok first) (actions : List Action) :
    (∃ c', (Handles.run path ⟨d, []⟩ actions).disk.entryAt path
      = .ok (.file c')) ∧
    ∃ s, (openAt path).outcome (Handles.run path ⟨d, []⟩ actions).disk
      = .ok s ∧
    ∀ t, t = s ∨ t ∈ (Handles.run path ⟨d, []⟩ actions).stores →
      t.keys.filter (untouched actions)
        = first.keys.filter (untouched actions) ∧
      (∀ key, untouched actions key = true →
        (key ∈ t.keys ↔ key ∈ first.keys) ∧
        (t.entry key).toOption = (first.entry key).toOption) := by
  have hstart : AllSound (untouched actions) first path ⟨d, []⟩ :=
    ⟨soundFile_of_openAt hfile hopen, fun s hs => nomatch hs⟩
  have hend : AllSound (untouched actions) first path
      (Handles.run path ⟨d, []⟩ actions) :=
    hstart.run (fun key hkey => decide_eq_false (not_not_intro hkey))
  obtain ⟨s, ho, hs⟩ := hend.file.openAt
  refine ⟨?_, s, ho, ?_⟩
  · obtain ⟨p, c', entries, hl, hc', -, -⟩ := hend.file
    refine ⟨c', ?_⟩
    rw [hl.entryAt, hc']
  · intro t ht
    have hfaithful : Faithful (untouched actions) first t := by
      rcases ht with rfl | ht
      · exact hs.faithful
      · exact (hend.stores t ht).faithful
    exact ⟨hfaithful.keys, fun key hkey =>
      ⟨hfaithful.mem_keys_iff hkey, hfaithful.entry key hkey⟩⟩

/-- A disk with nothing but a store of one entry. -/
def oneEntry : Disk where
  entries := [(["s.json"], .file "\x7b\"A-1\":[[\"s1\"]]\x7d".toUTF8)]
  here := []

/-- Two handles, of which the second is stale when it is saved. -/
def staleSave : List Action :=
  [.openAgain, .openAgain, .insert 0 ⟨"B-1", []⟩, .save 0, .save 1]

/-- The entry is still there after the stale handle has been saved. -/
theorem entry_survives_stale_save :
    ∃ first s, (openAt "s.json").outcome oneEntry = .ok first ∧
      "A-1" ∈ first.keys ∧
      (openAt "s.json").outcome
        (Handles.run "s.json" ⟨oneEntry, []⟩ staleSave).disk = .ok s ∧
      "A-1" ∈ s.keys ∧
      (s.entry "A-1").toOption = (first.entry "A-1").toOption := by
  have hfile : oneEntry.entryAt "s.json"
      = .ok (.file "\x7b\"A-1\":[[\"s1\"]]\x7d".toUTF8) := by
    decide +kernel
  have hkeys : ((openAt "s.json").outcome oneEntry).toOption.map
      SequenceStore.keys = some ["A-1"] := by decide +kernel
  cases hopen : (openAt "s.json").outcome oneEntry with
  | error e =>
      rw [hopen] at hkeys
      exact nomatch hkeys
  | ok first =>
      rw [hopen] at hkeys
      have hfirst : "A-1" ∈ first.keys := by
        rw [Option.some.inj hkeys]
        exact List.mem_cons_self ..
      obtain ⟨-, s, hs, hall⟩ :=
        untouched_entries_survive hfile hopen staleSave
      obtain ⟨hmem, hentry⟩ := (hall s (.inl rfl)).2 "A-1" (by decide)
      exact ⟨first, s, rfl, hfirst, hs, hmem.mpr hfirst, hentry⟩

end RiskExchange.Store
