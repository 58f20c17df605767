import Mathlib.Data.Set.Insert
import RiskExchange.Disk.Operations

/-! # Entries — what stands where after a disk has changed

    Everything that changes a disk puts an entry or erases one, so what stands
    at a place afterwards is settled here, together with the two relations that
    later files reason with:

    * `Changes made touched d d'` — `d'` is `d` with directories made at places
      of `made` where nothing stood, and anything at all at the places of
      `touched`;
    * `KeepsDirectories d d'` — every directory of `d` is still one. -/

namespace RiskExchange.Disk

variable {d d' d'' : Disk} {made made' touched : Set Place} {p q : Place}
  {e : Entry}

/-! ## Putting and erasing -/

/-- A place that is replaced or added, and nothing else, is looked up anew. -/
theorem lookup_putIn (p q : Place) (e : Entry) (l : List (Place × Entry)) :
    (putIn p e l).lookup q = if q = p then some e else l.lookup q := by
  induction l with
  | nil =>
      by_cases h : q = p
      · rw [if_pos h, h]
        exact List.lookup_cons_self
      · simp [putIn, h]
  | cons hd rest ih =>
      obtain ⟨r, f⟩ := hd
      by_cases hr : r = p
      · subst hr
        rw [putIn, if_pos rfl, List.lookup_cons, List.lookup_cons]
        by_cases h : q = r
        · simp [h]
        · rw [beq_false_of_ne h, if_neg h]
      · rw [putIn, if_neg hr, List.lookup_cons, List.lookup_cons, ih]
        by_cases h : q = r
        · subst h
          simp [hr]
        · rw [beq_false_of_ne h]

/-- What stands at a place after an entry has been put. -/
theorem get?_put (d : Disk) {p : Place} (hp : p ≠ []) (q : Place)
    (e : Entry) : (d.put p e).get? q = if q = p then some e else d.get? q := by
  rw [get?, get?]
  by_cases hq : q = []
  · rw [if_pos hq, if_pos hq, hq, if_neg (Ne.symm hp)]
  · rw [if_neg hq, if_neg hq]
    exact lookup_putIn p q e d.entries

theorem get?_put_self (d : Disk) {p : Place} (hp : p ≠ []) (e : Entry) :
    (d.put p e).get? p = some e := by
  rw [get?_put d hp, if_pos rfl]

theorem get?_put_of_ne (d : Disk) {p q : Place} (hp : p ≠ []) (h : q ≠ p)
    (e : Entry) : (d.put p e).get? q = d.get? q := by
  rw [get?_put d hp, if_neg h]

/-- What stands at a place after the entry at another one is gone. -/
theorem get?_erase_of_ne (d : Disk) {p q : Place} (h : q ≠ p) :
    (d.erase p).get? q = d.get? q := by
  have hlookup (l : List (Place × Entry)) :
      (l.filter (·.1 ≠ p)).lookup q = l.lookup q := by
    induction l with
    | nil => rfl
    | cons hd rest ih =>
        obtain ⟨r, f⟩ := hd
        by_cases hr : r = p
        · subst hr
          rw [List.filter_cons_of_neg (by simp), ih, List.lookup_cons,
            beq_false_of_ne h]
        · rw [List.filter_cons_of_pos (by simpa using hr), List.lookup_cons,
            List.lookup_cons, ih]
  rw [get?, get?]
  by_cases hq : q = []
  · rw [if_pos hq, if_pos hq]
  · rw [if_neg hq, if_neg hq]
    exact hlookup d.entries

theorem get?_erase_self (d : Disk) {p : Place} (hp : p ≠ []) :
    (d.erase p).get? p = none := by
  rw [get?, if_neg hp]
  refine List.lookup_eq_none_iff.mpr ?_
  intro x hx
  have hne : x.1 ≠ p := by simpa using (List.mem_filter.mp hx).2
  exact bne_iff_ne.mpr (Ne.symm hne)

@[simp] theorem here_put (d : Disk) (p : Place) (e : Entry) :
    (d.put p e).here = d.here := rfl

/-! ## Fresh names -/

private theorem le_foldl_max (l : List Nat) (m : Nat) :
    m ≤ l.foldl max m ∧ ∀ n ∈ l, n ≤ l.foldl max m := by
  induction l generalizing m with
  | nil => exact ⟨Nat.le_refl m, fun n hn => nomatch hn⟩
  | cons hd rest ih =>
      obtain ⟨h1, h2⟩ := ih (max m hd)
      refine ⟨Nat.le_trans (Nat.le_max_left m hd) h1, ?_⟩
      intro n hn
      rcases List.mem_cons.mp hn with heq | hmem
      · rw [heq]
        exact Nat.le_trans (Nat.le_max_right m hd) h1
      · exact h2 n hmem

/-- A fresh name is longer than the given texts and the names on the disk. -/
theorem length_lt_freshName (d : Disk) (texts : List String) {n : String}
    (hn : n ∈ texts ++ d.entries.flatMap (·.1)) :
    n.length < (d.freshName texts).length := by
  have hle := (le_foldl_max
    ((texts ++ d.entries.flatMap (·.1)).map (·.length)) 0).2 n.length
    (List.mem_map_of_mem hn)
  have hlen : (d.freshName texts).length = ".tmp".length
      + ((texts ++ d.entries.flatMap (·.1)).map (·.length)).foldl max 0 := by
    rw [freshName, String.length_append]
    simp only [String.length_ofList, List.length_replicate]
  have htmp : ".tmp".length = 4 := by decide
  omega

/-- Nothing stands under a fresh name. -/
theorem get?_freshName (d : Disk) (texts : List String) (p : Place) :
    d.get? (p ++ [d.freshName texts]) = none := by
  rw [get?, if_neg (by simp)]
  refine List.lookup_eq_none_iff.mpr ?_
  intro x hx
  have hne : p ++ [d.freshName texts] ≠ x.1 := ?_
  · exact bne_iff_ne.mpr hne
  intro heq
  have hname : d.freshName texts ∈ texts ++ d.entries.flatMap (·.1) := by
    refine List.mem_append_right _ (List.mem_flatMap.mpr ⟨x, hx, ?_⟩)
    rw [← heq]
    simp
  exact Nat.lt_irrefl _ (length_lt_freshName d texts hname)

/-! ## Directories are kept -/

/-- Every directory of the first disk is one of the second. -/
structure KeepsDirectories (d d' : Disk) : Prop where
  here : d'.here = d.here
  keeps : ∀ p, d.get? p = some .directory → d'.get? p = some .directory

theorem KeepsDirectories.refl (d : Disk) : KeepsDirectories d d :=
  ⟨rfl, fun _ h => h⟩

theorem KeepsDirectories.trans (h : KeepsDirectories d d')
    (h' : KeepsDirectories d' d'') : KeepsDirectories d d'' :=
  ⟨h'.here.trans h.here, fun p hp => h'.keeps p (h.keeps p hp)⟩

/-- A file may be put wherever there is no directory. -/
theorem KeepsDirectories.put (d : Disk) (hp : p ≠ [])
    (hd : d.get? p ≠ some .directory) (e : Entry) :
    KeepsDirectories d (d.put p e) := by
  refine ⟨rfl, ?_⟩
  intro q hq
  have hne : q ≠ p := fun h => hd (h ▸ hq)
  rw [get?_put_of_ne d hp hne]
  exact hq

theorem KeepsDirectories.erase (d : Disk)
    (hd : d.get? p ≠ some .directory) : KeepsDirectories d (d.erase p) := by
  refine ⟨rfl, ?_⟩
  intro q hq
  have hne : q ≠ p := fun h => hd (h ▸ hq)
  rw [get?_erase_of_ne d hne]
  exact hq

/-! ## Changes -/

/-- The second disk is the first with directories made at places of `made`
    where nothing stood, and with anything at the places of `touched`. -/
structure Changes (made touched : Set Place) (d d' : Disk) : Prop where
  here : d'.here = d.here
  keeps : ∀ p, p ∉ touched → d'.get? p = d.get? p ∨
    (d.get? p = none ∧ d'.get? p = some .directory ∧ p ∈ made)

theorem Changes.refl (made touched : Set Place) (d : Disk) :
    Changes made touched d d := ⟨rfl, fun _ _ => .inl rfl⟩

theorem Changes.trans (h : Changes made touched d d')
    (h' : Changes made touched d' d'') : Changes made touched d d'' := by
  refine ⟨h'.here.trans h.here, ?_⟩
  intro p hp
  rcases h.keeps p hp with h1 | ⟨h1, h2, hm⟩
  · rcases h'.keeps p hp with h3 | ⟨h3, h4, hm⟩
    · exact .inl (h3.trans h1)
    · exact .inr ⟨h1 ▸ h3, h4, hm⟩
  · rcases h'.keeps p hp with h3 | ⟨h3, h4, hm⟩
    · exact .inr ⟨h1, h3.trans h2, hm⟩
    · rw [h2] at h3
      exact nomatch h3

/-- More places may be named. -/
theorem Changes.mono {touched' : Set Place} (h : Changes made touched d d')
    (hm : ∀ p ∈ made, p ∈ made') (ht : ∀ p ∈ touched, p ∈ touched') :
    Changes made' touched' d d' := by
  refine ⟨h.here, ?_⟩
  intro p hp
  rcases h.keeps p (fun hmem => hp (ht p hmem)) with h1 | ⟨h1, h2, h3⟩
  · exact .inl h1
  · exact .inr ⟨h1, h2, hm p h3⟩

theorem Changes.put (made : Set Place) (d : Disk) (hp : p ≠ [])
    (ht : p ∈ touched) (e : Entry) : Changes made touched d (d.put p e) := by
  refine ⟨rfl, ?_⟩
  intro q hq
  have hne : q ≠ p := fun h => hq (h ▸ ht)
  exact .inl (get?_put_of_ne d hp hne e)

theorem Changes.erase (made : Set Place) (d : Disk) (ht : p ∈ touched) :
    Changes made touched d (d.erase p) := by
  refine ⟨rfl, ?_⟩
  intro q hq
  have hne : q ≠ p := fun h => hq (h ▸ ht)
  exact .inl (get?_erase_of_ne d hne)

/-- A place that is as it was need not count as touched. -/
theorem Changes.of_same {touched' : Set Place} (h : Changes made touched d d')
    (hs : ∀ p ∈ touched, p ∈ touched' ∨ d'.get? p = d.get? p) :
    Changes made touched' d d' := by
  refine ⟨h.here, ?_⟩
  intro p hp
  by_cases ht : p ∈ touched
  · rcases hs p ht with h1 | h1
    · exact absurd h1 hp
    · exact .inl h1
  · exact h.keeps p ht

/-- Where nothing else is touched, entries stay. -/
theorem Changes.get?_eq (h : Changes made touched d d') (hp : p ∉ touched)
    (he : d.get? p = some e) : d'.get? p = some e := by
  rcases h.keeps p hp with h1 | ⟨h1, -, -⟩
  · exact h1.trans he
  · rw [he] at h1
    exact nomatch h1

/-- Outside the touched places every file was there before. -/
theorem Changes.file_of_file {c : ByteArray} (h : Changes made touched d d')
    (hp : p ∉ touched) (hc : d'.get? p = some (.file c)) :
    d.get? p = some (.file c) := by
  rcases h.keeps p hp with h1 | ⟨-, h2, -⟩
  · exact h1.symm.trans hc
  · rw [hc] at h2
    exact nomatch h2

/-- Directories stay if those at touched places do. -/
theorem Changes.keepsDirectories (h : Changes made touched d d')
    (ht : ∀ p ∈ touched, d.get? p = some .directory →
      d'.get? p = some .directory) : KeepsDirectories d d' := by
  refine ⟨h.here, ?_⟩
  intro p hp
  by_cases hmem : p ∈ touched
  · exact ht p hmem hp
  · exact h.get?_eq hmem hp

end RiskExchange.Disk
