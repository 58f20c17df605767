import RiskExchange.Proofs.Json.Rereading

/-! # Sameness — when two lists of members count as equal

    Values are compared without regard to the order of members, so two lists
    count as equal if the same value is looked up in both under every name
    (`sameEntries_of_lookup`). A value is the same as itself as long as no
    object in it repeats a name, which holds of whatever has been read. -/

namespace RiskExchange.Json

variable {depth : Nat} {v : Value} {a b : List (String × Value)}

/-! ## Looking up what is there -/

/-- A member is looked up under its name if no name is repeated. -/
theorem lookupMember_of_mem (hn : (names a).Nodup) {m : String × Value}
    (hm : m ∈ a) : lookupMember m.1 a = some m.2 := by
  induction a with
  | nil => exact nomatch hm
  | cons k rest ih =>
      obtain ⟨hk, hrest⟩ := List.nodup_cons.mp hn
      rcases List.mem_cons.mp hm with rfl | hm
      · exact lookupMember_cons_self m.1 m.2 rest
      · have hne : k.1 ≠ m.1 := by
          intro heq
          have hmem : m.1 ∈ names rest := List.mem_map_of_mem hm
          rw [← heq] at hmem
          exact hk hmem
        rw [lookupMember_cons_of_ne hne]
        exact ih hrest hm

/-- Members that are looked up the same have the same names, so there are
    equally many. -/
theorem length_eq_of_lookup (ha : (names a).Nodup) (hb : (names b).Nodup)
    (h : ∀ name, lookupMember name a = lookupMember name b) :
    a.length = b.length := by
  have hmem (name : String) : name ∈ names a ↔ name ∈ names b := by
    rw [← not_iff_not, ← lookupMember_eq_none_iff,
      ← lookupMember_eq_none_iff, h name]
  have hlength := ((List.perm_ext_iff_of_nodup ha hb).mpr hmem).length_eq
  rw [names, names, List.length_map, List.length_map] at hlength
  exact hlength

/-! ## Values and themselves -/

theorem Number.same_refl (n : Number) : n.same n = true := by
  cases n with
  | natural n => exact beq_self_eq_true _
  | negative m => exact beq_self_eq_true _
  | float x =>
      change (x == x || _) = true
      rw [beq_self_eq_true, Bool.true_or]

private theorem sameItems_refl {items : List Value}
    (h : ∀ v ∈ items, v.same v = true) : sameItems items items = true := by
  induction items with
  | nil => rfl
  | cons v rest ih =>
      rw [sameItems, h v (List.mem_cons_self ..),
        ih (fun w hw => h w (List.mem_cons_of_mem _ hw))]
      rfl

/-- Members are among others in which each of them is looked up as a value
    that is the same as itself. -/
private theorem sameMembers_of_lookup
    (h : ∀ m ∈ a, lookupMember m.1 b = some m.2 ∧ m.2.same m.2 = true) :
    sameMembers a b = true := by
  induction a with
  | nil => rfl
  | cons m rest ih =>
      obtain ⟨name, v⟩ := m
      obtain ⟨hlookup, hsame⟩ := h (name, v) (List.mem_cons_self ..)
      rw [sameMembers, ih (fun k hk => h k (List.mem_cons_of_mem _ hk)),
        sameMember]
      simp only [hlookup, hsame, Bool.and_self]

/-- Whatever has been read is the same as itself. -/
theorem Value.Storable.same_refl (h : v.Storable depth) :
    v.same v = true := by
  induction h with
  | null => rfl
  | bool b => exact beq_self_eq_true b
  | @number depth n h => exact n.same_refl
  | string s => exact beq_self_eq_true s
  | array hd h ih => exact sameItems_refl ih
  | object hd hn h ih =>
      rw [Value.same, beq_self_eq_true, Bool.true_and]
      exact sameMembers_of_lookup
        (fun m hm => ⟨lookupMember_of_mem hn hm, ih m hm⟩)

/-! ## Members in another order -/

/-- Members count as equal if the same is looked up in them under every
    name. -/
theorem sameEntries_of_lookup (ha : (Value.object a).Storable depth)
    (hb : (names b).Nodup)
    (h : ∀ name, lookupMember name a = lookupMember name b) :
    sameEntries a b = true := by
  cases ha with
  | object hd hn hm =>
      rw [sameEntries, length_eq_of_lookup hn hb h, beq_self_eq_true,
        Bool.true_and]
      refine sameMembers_of_lookup (fun m hmem => ⟨?_, (hm m hmem).same_refl⟩)
      rw [← h]
      exact lookupMember_of_mem hn hmem

end RiskExchange.Json
