import RiskExchange.Proofs.Json.Sameness
import RiskExchange.Proofs.Store.Reopening

/-! # Persisting — entries added to the file of a store, one after the other

    A store can be saved under a path that is `Ready`: the directories above
    can be made and no directory stands where the path leads then. Nothing else
    matters, least of all the entries, so a path that has been saved under once
    is ready for good. What is opened there next is the saved store `reopened`,
    in which every value has been printed and read; the entries of a logic come
    back as they were. -/

namespace RiskExchange.Store.SequenceStore

open RiskExchange.CutSet (SequenceLogic TermCode)
open RiskExchange.Disk
open RiskExchange.Disk.Session
open RiskExchange.Json

variable {s t u : SequenceStore} {path : String} {l m : SequenceLogic}
  {d made : Disk} {p : Place} {c : ByteArray}

/-! ## Paths that are ready -/

/-- The directories above the path can be made, and on the disk that has them
    the path leads to a place where no directory stands. -/
structure Ready (path : String) (d made : Disk) (p : Place) : Prop where
  prepare : ∀ s : SequenceStore, s.path = path →
    s.prepare d = (made, .ok ())
  leads : Leads made path p
  free : made.get? p ≠ some .directory

/-- A path under which a store has been saved was ready. -/
theorem ready_of_save (h : s.save.outcome d = .ok ()) :
    ∃ made p, Ready s.path d made p := by
  rcases save_cases s d with ⟨e, he, -⟩ | ⟨p, hok, hl, hd, -, -⟩
  · rw [he] at h
    exact nomatch h
  · refine ⟨(s.prepare d).1, p, ?_, hl, hd⟩
    intro t ht
    rw [prepare, ht]
    exact Prod.ext rfl hok

theorem Ready.save (h : Ready path d made p) (hs : s.path = path) :
    s.save.outcome d = .ok () ∧
      s.save.after d = made.put p (.file s.content) :=
  save_of_leads (h.prepare s hs) (hs ▸ h.leads) h.free

/-- A path stays ready when a file is put where it leads. -/
theorem Ready.put (h : Ready path d made p) (c : ByteArray) :
    Ready path (made.put p (.file c)) (made.put p (.file c)) p := by
  have hkeeps : KeepsDirectories made (made.put p (.file c)) :=
    KeepsDirectories.put made h.leads.ne_nil h.free _
  refine ⟨?_, h.leads.mono hkeeps, ?_⟩
  · intro s hs
    exact prepare_again (h.prepare s hs) hkeeps rfl
  · rw [get?_put_self _ h.leads.ne_nil]
    exact fun hd => nomatch hd

theorem Ready.entryAt_put (h : Ready path d made p) (c : ByteArray) :
    (made.put p (.file c)).entryAt path = .ok (.file c) := by
  rw [(h.put c).leads.entryAt, get?_put_self _ h.leads.ne_nil]

/-! ## What is opened after saving -/

@[simp] theorem path_insert (s : SequenceStore) (l : SequenceLogic) :
    (s.insert l).path = s.path := rfl

/-- The store that is opened from the file of a saved one. -/
def reopened (s : SequenceStore) : SequenceStore :=
  ⟨s.path, rereadMembers s.entries, true⟩

theorem Ready.openAt_put (h : Ready path d made p) (hs : s.path = path)
    (hstorable : Storable s.entries) :
    (openAt path).outcome (made.put p (.file s.content))
      = .ok s.reopened := by
  refine openAt_eq_ok_iff.mpr (.inl ⟨_, rereadMembers s.entries,
    h.entryAt_put s.content, readEntries_content hstorable, ?_⟩)
  rw [reopened, hs]

theorem storable_reopened (h : Storable s.entries) :
    Storable s.reopened.entries := by
  have hread : readEntries s.path s.content = .ok s.reopened.entries :=
    readEntries_content h
  exact storable_of_readEntries hread

theorem agrees_reopened (s : SequenceStore) : Agrees s s.reopened :=
  agrees_of_reread rfl

/-- A value of a logic is read as it was printed: it holds no numbers. -/
theorem reread_toJson (l : SequenceLogic) : l.toJson.reread = l.toJson := by
  have hcodes (codes : List TermCode) :
      rereadItems (codes.map TermCode.toJson)
        = codes.map TermCode.toJson := by
    rw [rereadItems_eq_map, List.map_map]
    rfl
  rw [SequenceLogic.toJson, Value.reread, rereadItems_eq_map, List.map_map]
  refine congrArg Value.array (List.map_congr_left ?_)
  intro codes _
  exact congrArg Value.array (hcodes codes)

/-- What is looked up in the store that is opened after a logic has been
    inserted and saved. -/
theorem lookupMember_reopened_insert (s : SequenceStore) (l : SequenceLogic)
    (key : String) : lookupMember key (s.insert l).reopened.entries
      = if key = l.key then some l.toJson
        else (lookupMember key s.entries).map Value.reread := by
  change lookupMember key
    (rereadMembers (insertMember l.key l.toJson s.entries)) = _
  rw [rereadMembers_eq_map, lookupMember_map, lookupMember_insertMember]
  by_cases hkey : key = l.key
  · rw [if_pos hkey, if_pos hkey]
    exact congrArg some (reread_toJson l)
  · rw [if_neg hkey, if_neg hkey]

/-! ## Persisting -/

/-- Persisting opens the store, and then it depends on the path alone. -/
theorem persist_of_ready (ho : (openAt path).outcome d = .ok s)
    (h : Ready path d made p) : (persist path l).outcome d = .ok () ∧
      (persist path l).after d
        = made.put p (.file (s.insert l).content) := by
  have hpath : (s.insert l).path = path :=
    (path_insert s l).trans (path_of_openAt ho)
  obtain ⟨hok, hafter⟩ := h.save hpath
  rw [← after_openAt path d] at hok hafter
  rw [persist, outcome_bind_of_ok ho, after_bind_of_ok ho,
    outcome_bind_of_ok hok, after_bind_of_ok hok]
  exact ⟨rfl, hafter⟩

/-- What has been persisted was opened, and the path was ready. -/
theorem ready_of_persist (h : (persist path l).outcome d = .ok ()) :
    ∃ s made p, (openAt path).outcome d = .ok s ∧ Ready path d made p := by
  obtain ⟨s, ho, h⟩ := outcome_bind_ok h
  obtain ⟨_, hsave, -⟩ := outcome_bind_ok h
  rw [after_openAt] at hsave
  obtain ⟨made, p, hready⟩ := ready_of_save hsave
  refine ⟨s, made, p, ho, ?_⟩
  rw [← path_of_openAt ho]
  exact hready

/-- A store in the file at its path, which is ready to be saved under. -/
structure Stands (path : String) (d : Disk) (s : SequenceStore) : Prop where
  opened : (openAt path).outcome d = .ok s
  ready : ∃ made p, Ready path d made p

/-- One step: a logic is persisted into whatever store stands there. -/
theorem Stands.persist (h : Stands path d s) (l : SequenceLogic) :
    (persist path l).outcome d = .ok () ∧
      Stands path ((SequenceStore.persist path l).after d)
        (s.insert l).reopened := by
  obtain ⟨made, p, hready⟩ := h.ready
  obtain ⟨hok, hafter⟩ := persist_of_ready (l := l) h.opened hready
  refine ⟨hok, ?_, ?_⟩
  · rw [hafter]
    exact hready.openAt_put
      ((path_insert s l).trans (path_of_openAt h.opened))
      (storable_insert (storable_of_openAt h.opened) l)
  · rw [hafter]
    exact ⟨_, _, hready.put _⟩

theorem stands_of_persist (h : (persist path l).outcome d = .ok ()) :
    ∃ s, Stands path d s := by
  obtain ⟨s, made, p, ho, hready⟩ := ready_of_persist h
  exact ⟨s, ho, made, p, hready⟩

/-! ## Two logics -/

/-- Inserting and saving twice under one key changes no key and nothing that
    is decoded. -/
theorem agrees_insert_again (s : SequenceStore) (l : SequenceLogic) :
    Agrees (s.insert l).reopened
      ((s.insert l).reopened.insert l).reopened := by
  -- the key is there by then, so the second insertion adds none
  generalize ht : (s.insert l).reopened = t
  have hkey : l.key ∈ t.keys := by
    rw [← ht, (agrees_reopened _).keys, keys_insert]
    by_cases hmem : l.key ∈ s.keys
    · rw [if_pos hmem]
      exact hmem
    · rw [if_neg hmem]
      exact List.mem_append_right _ (List.mem_singleton_self _)
  constructor
  · rw [(agrees_reopened _).keys, keys_insert, if_pos hkey]
  · intro key
    rw [(agrees_reopened _).entry]
    by_cases hk : key = l.key
    · rw [hk, toOption_entry_insert_self, ← ht, (agrees_reopened _).entry,
        toOption_entry_insert_self]
    · exact toOption_entry_insert_of_ne hk

/-- Two logics under different keys may be inserted and saved in either
    order. -/
theorem same_insert_comm (hs : Storable s.entries) (hne : m.key ≠ l.key) :
    (((s.insert l).reopened.insert m).reopened).same
      (((s.insert m).reopened.insert l).reopened) = true := by
  have hstorable (l m : SequenceLogic) :
      Storable ((s.insert l).reopened.insert m).reopened.entries :=
    storable_reopened (storable_insert
      (storable_reopened (storable_insert hs l)) m)
  have hlookup (key : String) :
      lookupMember key ((s.insert l).reopened.insert m).reopened.entries
        = lookupMember key
          ((s.insert m).reopened.insert l).reopened.entries := by
    simp only [lookupMember_reopened_insert]
    -- other values are printed and read twice on both sides; those of the
    -- logics do not change by that
    by_cases hl : key = l.key
    · have hm : key ≠ m.key := fun h => hne (h.symm.trans hl)
      rw [if_neg hm, if_pos hl, if_pos hl]
      exact congrArg some (reread_toJson l)
    · rw [if_neg hl, if_neg hl]
      by_cases hm : key = m.key
      · rw [if_pos hm, if_pos hm]
        exact congrArg some (reread_toJson m).symm
      · rw [if_neg hm, if_neg hm]
  have hentries := sameEntries_of_lookup (hstorable l m)
    (nodup_keys (hstorable m l)) hlookup
  rw [same, hentries]
  exact Bool.and_eq_true_iff.mpr
    ⟨Bool.and_eq_true_iff.mpr ⟨beq_self_eq_true _, rfl⟩, rfl⟩

/-! ## What persisting does -/

/-- Under a key that has been inserted and saved its sequences are found. -/
theorem entry_reopened_insert (s : SequenceStore) (l : SequenceLogic) :
    (s.insert l).reopened.entry l.key = .ok (some l.sequences) := by
  refine toOption_eq_some_iff.mp ?_
  rw [(agrees_reopened _).entry, toOption_entry_insert_self]

/-- Whenever a logic is persisted, the store can be opened before and after.
    Its keys stay in their order, the key of the logic goes behind them if it
    is new, and the sequences of the logic are found under it. The same logic
    can be persisted once more, which changes no key and nothing that is
    decoded. A logic under another key can be persisted before or after, and
    the stores are equal then. -/
theorem persist_spec (h : (persist path l).outcome d = .ok ()) :
    ∃ s t, (openAt path).outcome d = .ok s ∧
      (openAt path).outcome ((persist path l).after d) = .ok t ∧
      t.keys = (if l.key ∈ s.keys then s.keys else s.keys ++ [l.key]) ∧
      t.entry l.key = .ok (some l.sequences) ∧
      (∃ u, (persist path l).outcome ((persist path l).after d) = .ok () ∧
        (openAt path).outcome
          ((persist path l).after ((persist path l).after d)) = .ok u ∧
        u.keys = t.keys ∧
        ∀ key, (u.entry key).toOption = (t.entry key).toOption) ∧
      ∀ m : SequenceLogic, m.key ≠ l.key → ∃ u v,
        (persist path m).outcome ((persist path l).after d) = .ok () ∧
        (openAt path).outcome
          ((persist path m).after ((persist path l).after d)) = .ok u ∧
        (persist path m).outcome d = .ok () ∧
        (persist path l).outcome ((persist path m).after d) = .ok () ∧
        (openAt path).outcome
          ((persist path l).after ((persist path m).after d)) = .ok v ∧
        u.same v = true := by
  obtain ⟨s, hs⟩ := stands_of_persist h
  -- each clause is a run of steps from `hs`
  obtain ⟨-, hl⟩ := hs.persist l
  refine ⟨s, _, hs.opened, hl.opened, ?_, entry_reopened_insert s l, ?_, ?_⟩
  · rw [(agrees_reopened _).keys, keys_insert]
  · obtain ⟨hagain, hll⟩ := hl.persist l
    have hagrees := agrees_insert_again s l
    exact ⟨_, hagain, hll.opened, hagrees.keys, hagrees.entry⟩
  · intro m hne
    obtain ⟨hm, hlm⟩ := hl.persist m
    obtain ⟨hfirst, hsm⟩ := hs.persist m
    obtain ⟨hsecond, hml⟩ := hsm.persist l
    exact ⟨_, _, hm, hlm.opened, hfirst, hsecond, hml.opened,
      same_insert_comm (storable_of_openAt hs.opened) hne⟩

/-- A disk with nothing but a store, which holds an entry of another shape
    and one that is in the way. -/
def otherShapes : Disk where
  entries := [(["s.json"],
    .file "\x7b\"x\":0.1,\"\\u0000\":null\x7d".toUTF8)]
  here := []

/-- A logic under a key that has to be escaped. -/
def nulLogic : SequenceLogic :=
  ⟨"\x00", [[.ofTerm 7, .ofTerm 131071], []]⟩

/-- The logic takes the place of the entry in the way, whether another logic
    is persisted before or after. -/
theorem persist_spec_otherShapes :
    (persist "s.json" nulLogic).outcome otherShapes = .ok () ∧
    ∃ t, (openAt "s.json").outcome
        ((persist "s.json" nulLogic).after otherShapes) = .ok t ∧
      t.entry "\x00" = .ok (some nulLogic.sequences) ∧
      ∃ u v, (openAt "s.json").outcome ((persist "s.json" ⟨"y", []⟩).after
          ((persist "s.json" nulLogic).after otherShapes)) = .ok u ∧
        (openAt "s.json").outcome ((persist "s.json" nulLogic).after
          ((persist "s.json" ⟨"y", []⟩).after otherShapes)) = .ok v ∧
        u.same v = true := by
  have hok : (persist "s.json" nulLogic).outcome otherShapes = .ok () := by
    decide +kernel
  obtain ⟨-, t, -, ht, -, hentry, -, hcomm⟩ := persist_spec hok
  obtain ⟨u, v, -, hu, -, -, hv, hsame⟩ := hcomm ⟨"y", []⟩ (by decide)
  exact ⟨hok, t, ht, hentry, u, v, hu, hv, hsame⟩

end RiskExchange.Store.SequenceStore
