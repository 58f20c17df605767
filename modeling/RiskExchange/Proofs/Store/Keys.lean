import RiskExchange.Proofs.Store.Persisting
import RiskExchange.Solver.RawId

/-! # Keys — which logics share an entry of a store

    The key of a logic joins the name of an event tree and its sequence count
    with a hyphen, and both may hold hyphens of their own. So two trees have
    one key if and only if the text can be divided in two ways
    (`key_eq_key_iff`). Logics under different keys do not disturb each other
    (`different_trees_kept_apart`); under one key the later replaces the
    earlier (`hyphenated_names_share_entry`). -/

namespace RiskExchange.Store.SequenceStore

open RiskExchange.CutSet (SequenceLogic TermCode)
open RiskExchange.Disk
open RiskExchange.Disk.Session
open RiskExchange.Solver (RawId)

/-- The second name is the first, a hyphen and a text with which the first
    count begins; the second count is what follows that text and a hyphen. -/
def Straddles (name count name' count' : String) : Prop :=
  ∃ text, name' = name ++ "-" ++ text ∧ count = text ++ "-" ++ count'

/-- A text divided at two hyphens, the first not behind the second. -/
private theorem divided_iff {a b m n : List Char} :
    (∃ x, b = a ++ x ∧ '-' :: m = x ++ '-' :: n) ↔
      (a = b ∧ m = n) ∨
      ∃ x, b = a ++ '-' :: x ∧ m = x ++ '-' :: n := by
  constructor
  · rintro ⟨x, rfl, h⟩
    cases x with
    | nil => exact .inl ⟨(List.append_nil a).symm, (List.cons.inj h).2⟩
    | cons c x =>
        obtain ⟨rfl, rfl⟩ := List.cons.inj h
        exact .inr ⟨x, rfl, rfl⟩
  · rintro (⟨rfl, rfl⟩ | ⟨x, rfl, rfl⟩)
    · exact ⟨[], (List.append_nil a).symm, rfl⟩
    · exact ⟨'-' :: x, rfl, rfl⟩

private theorem toList_join (a m : String) :
    (a ++ "-" ++ m).toList = a.toList ++ '-' :: m.toList := by
  rw [String.toList_append, String.toList_append, List.append_assoc]
  rfl

private theorem straddles_iff {a m b n : String} : Straddles a m b n ↔
    ∃ x, b.toList = a.toList ++ '-' :: x ∧
      m.toList = x ++ '-' :: n.toList := by
  constructor
  · rintro ⟨text, rfl, rfl⟩
    exact ⟨text.toList, toList_join a text, toList_join text n⟩
  · rintro ⟨x, hb, hm⟩
    refine ⟨String.ofList x, ?_, ?_⟩
    · rw [← String.toList_inj, toList_join, String.toList_ofList]
      exact hb
    · rw [← String.toList_inj, toList_join, String.toList_ofList]
      exact hm

/-- Two trees have one key if and only if they have one name and one count, or
    the key of one can be divided at another hyphen into what is of the
    other. -/
theorem key_eq_key_iff {a b m n : String} {ss ts : List (List TermCode)} :
    (SequenceLogic.ofTree a m ss).key = (SequenceLogic.ofTree b n ts).key ↔
      (a = b ∧ m = n) ∨ Straddles a m b n ∨ Straddles b n a m := by
  show a ++ "-" ++ m = b ++ "-" ++ n ↔ _
  rw [straddles_iff, straddles_iff, ← String.toList_inj, toList_join,
    toList_join, List.append_eq_append_iff, divided_iff, divided_iff,
    String.toList_inj, String.toList_inj, String.toList_inj,
    String.toList_inj]
  constructor
  · rintro ((h | h) | (⟨rfl, rfl⟩ | h))
    · exact .inl h
    · exact .inr (.inl h)
    · exact .inl ⟨rfl, rfl⟩
    · exact .inr (.inr h)
  · rintro (h | h | h)
    · exact .inl (.inl h)
    · exact .inl (.inr h)
    · exact .inr (.inr h)

/-! ## Two logics in one store -/

variable {path : String} {d : Disk} {l k : SequenceLogic}

/-- A logic is found in a store into which another one has been persisted
    after it. -/
theorem entries_of_persist {s : SequenceStore} (h : Stands path d s)
    (hne : l.key ≠ k.key) : ∃ t,
      (persist path k).outcome ((persist path l).after d) = .ok () ∧
      (openAt path).outcome
        ((persist path k).after ((persist path l).after d)) = .ok t ∧
      t.entry l.key = .ok (some l.sequences) ∧
      t.entry k.key = .ok (some k.sequences) := by
  obtain ⟨-, hl⟩ := h.persist l
  obtain ⟨hok, hk⟩ := hl.persist k
  refine ⟨_, hok, hk.opened, toOption_eq_some_iff.mp ?_,
    entry_reopened_insert _ k⟩
  rw [(agrees_reopened _).entry, toOption_entry_insert_of_ne hne,
    entry_reopened_insert]
  rfl

/-- The logics of two trees share an entry only if they have one name and one
    count, or one key can be divided in two ways. Otherwise both are found in
    a store into which they have been persisted, in either order. -/
theorem different_trees_kept_apart (a b : String) (m n : RawId)
    (ss ts : List (List TermCode)) :
    let l := SequenceLogic.ofTree a m.written ss
    let k := SequenceLogic.ofTree b n.written ts
    (l.key = k.key ↔ (a = b ∧ m.written = n.written) ∨
      Straddles a m.written b n.written ∨
      Straddles b n.written a m.written) ∧
    (l.key ≠ k.key → ∀ path d, (persist path l).outcome d = .ok () →
      ∃ t u, (persist path k).outcome ((persist path l).after d) = .ok () ∧
        (openAt path).outcome
          ((persist path k).after ((persist path l).after d)) = .ok t ∧
        t.entry l.key = .ok (some ss) ∧ t.entry k.key = .ok (some ts) ∧
        (persist path k).outcome d = .ok () ∧
        (persist path l).outcome ((persist path k).after d) = .ok () ∧
        (openAt path).outcome
          ((persist path l).after ((persist path k).after d)) = .ok u ∧
        u.entry l.key = .ok (some ss) ∧ u.entry k.key = .ok (some ts)) := by
  intro l k
  refine ⟨key_eq_key_iff, ?_⟩
  intro hne path d hl
  obtain ⟨s, hs⟩ := stands_of_persist hl
  obtain ⟨hk, -⟩ := hs.persist k
  obtain ⟨t, hlk, ht, htl, htk⟩ := entries_of_persist hs hne
  obtain ⟨u, hkl, hu, huk, hul⟩ := entries_of_persist hs hne.symm
  exact ⟨t, u, hlk, ht, htl, htk, hk, hkl, hu, hul, huk⟩

/-- The logic of a tree with one sequence. -/
def oneSequence (name : String) (count : RawId) (term : Nat) : SequenceLogic :=
  .ofTree name count.written [[.ofTerm term]]

/-- A hyphen in a name does no harm to another name with another count. -/
theorem different_trees_kept_apart_hyphen : ∃ t,
    (openAt "s.json").outcome
      ((persist "s.json" (oneSequence "A" (.text "1-3") 8)).after
        ((persist "s.json" (oneSequence "A-1" (.number (.natural 2)) 7)).after
          .empty)) = .ok t ∧
    t.entry "A-1-2" = .ok (some [[.ofTerm 7]]) ∧
    t.entry "A-1-3" = .ok (some [[.ofTerm 8]]) := by
  have hok : (persist "s.json"
      (oneSequence "A-1" (.number (.natural 2)) 7)).outcome .empty
        = .ok () := by
    decide +kernel
  obtain ⟨-, hapart⟩ := different_trees_kept_apart "A-1" "A"
    (.number (.natural 2)) (.text "1-3") [[.ofTerm 7]] [[.ofTerm 8]]
  obtain ⟨t, -, -, ht, hfirst, hsecond, -⟩ :=
    hapart (by decide +kernel) "s.json" .empty hok
  exact ⟨t, ht, hfirst, hsecond⟩

/-- The tree `A-1` with the count `2` and the tree `A` with the count `1-2`
    have one key, and the logic of the second replaces that of the first. -/
theorem hyphenated_names_share_entry :
    ("A-1", (RawId.number (.natural 2)).written)
      ≠ ("A", (RawId.text "1-2").written) ∧
    (oneSequence "A-1" (.number (.natural 2)) 7).key
      = (oneSequence "A" (.text "1-2") 8).key ∧
    ∃ t, (openAt "s.json").outcome
        ((persist "s.json" (oneSequence "A" (.text "1-2") 8)).after
          ((persist "s.json" (oneSequence "A-1" (.number (.natural 2)) 7)).after
            .empty)) = .ok t ∧
      t.entry (oneSequence "A-1" (.number (.natural 2)) 7).key
        ≠ .ok (some (oneSequence "A-1" (.number (.natural 2)) 7).sequences) := by
  have hkey : (oneSequence "A-1" (.number (.natural 2)) 7).key
      = (oneSequence "A" (.text "1-2") 8).key := by
    decide +kernel
  have hok : (persist "s.json"
      (oneSequence "A-1" (.number (.natural 2)) 7)).outcome .empty
        = .ok () := by
    decide +kernel
  obtain ⟨s, hs⟩ := stands_of_persist hok
  obtain ⟨-, hfirst⟩ := hs.persist (oneSequence "A-1" (.number (.natural 2)) 7)
  obtain ⟨-, hsecond⟩ := hfirst.persist (oneSequence "A" (.text "1-2") 8)
  refine ⟨by decide, hkey, _, hsecond.opened, ?_⟩
  rw [hkey, entry_reopened_insert]
  decide

end RiskExchange.Store.SequenceStore
