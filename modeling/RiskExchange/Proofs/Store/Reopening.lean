import RiskExchange.Proofs.Disk.Places
import RiskExchange.Proofs.Store.Entries
import RiskExchange.Proofs.Store.Files

/-! # Reopening — what is opened at a plain path

    A store at a plain path can be opened if its path fits and either its file
    can be read or there is no file, not even on the way. What is opened is
    settled by what stands at the place of the path. -/

namespace RiskExchange.Store.SequenceStore

open RiskExchange.Disk
open RiskExchange.Disk.Session
open RiskExchange.Json (rereadMembers)

variable {s : SequenceStore} {path : String} {d d' : Disk}

/-- What is opened can be saved and opened again. -/
theorem storable_of_openAt (h : (openAt path).outcome d = .ok s) :
    Storable s.entries := by
  rcases openAt_eq_ok_iff.mp h with ⟨c, entries, -, hr, rfl⟩ | ⟨-, rfl⟩
  · exact storable_of_readEntries hr
  · exact .object (by decide) List.nodup_nil (fun m hm => nomatch hm)

/-- Only a usable path can be opened. -/
theorem usable_of_openAt (hne : path ≠ "")
    (h : (openAt path).outcome d = .ok s) : Path.Usable path := by
  rcases openAt_eq_ok_iff.mp h with ⟨c, entries, hc, -, -⟩ | ⟨hn, -⟩
  · obtain ⟨p, ⟨dir, n, hl, -, -⟩, -⟩ := leads_of_entryAt hc
    exact usable_of_locate hl
  · exact usable_of_notFound hne hn

/-- No file is on the way to a store on a tree that can be opened. -/
theorem clear_of_openAt (hp : Path.Plain path) (hfits : Path.Fits path)
    (htree : d.IsTree) (h : (openAt path).outcome d = .ok s) :
    d.Clear path := by
  rcases openAt_eq_ok_iff.mp h with ⟨c, entries, hc, -, -⟩ | ⟨hn, -⟩
  · obtain ⟨hl, -⟩ := hp.leads_of_entryAt hc
    exact (hp.leads_iff.mp hl).2.1.clear
  · exact htree.clear_of_notFound hp hfits hn

/-- What opening depends on: the file at the place of the path, or that there
    is none. -/
theorem openAt_iff_of_clear (hp : Path.Plain path) (hfits : Path.Fits path)
    (hclear : d.Clear path) (hrooted : d.Rooted path) :
    (openAt path).outcome d = .ok s ↔
      (∃ c entries, d.get? (d.placeOf path) = some (.file c) ∧
        readEntries path c = .ok entries ∧ s = ⟨path, entries, true⟩) ∨
      (d.get? (d.placeOf path) = none ∧ s = ⟨path, [], false⟩) := by
  have hread (e : Entry) : d.entryAt path = .ok e ↔
      d.get? (d.placeOf path) = some e := by
    rw [← shown_eq_some_iff, hp.shown_eq_some_iff]
    refine ⟨fun h => h.2.2, fun h => ⟨hfits, hrooted (by simp [h]), h⟩⟩
  have hnone : d.entryAt path = .error .notFound ↔
      d.get? (d.placeOf path) = none := by
    constructor
    · intro hn
      cases hg : d.get? (d.placeOf path) with
      | none => rfl
      | some e =>
          rw [(hread e).mpr hg] at hn
          exact nomatch hn
    · exact hp.entryAt_of_clear hfits hclear
  rw [openAt_eq_ok_iff, hnone]
  simp only [hread]

/-- A store that has been saved is opened again. -/
theorem openAt_of_saved (hp : Path.Plain path) (hfits : Path.Fits path)
    (hclear : d.Clear path) (hrooted : d.Rooted path)
    (hs : Storable s.entries)
    (hc : d.get? (d.placeOf path) = some (.file s.content)) :
    (openAt path).outcome d
      = .ok ⟨path, rereadMembers s.entries, true⟩ :=
  (openAt_iff_of_clear hp hfits hclear hrooted).mpr
    (.inl ⟨_, _, hc, readEntries_content hs, rfl⟩)

end RiskExchange.Store.SequenceStore
