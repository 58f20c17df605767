import RiskExchange.Json.Value

/-! # Members — inserting into and looking up in a list of members

    A name that is inserted keeps its place if it is known and goes to the end
    if it is new; no other name is looked up differently afterwards. -/

namespace RiskExchange.Json

variable {name : String} {v : Value} {l : List (String × Value)}
  {m : String × Value}

/-- The names of members in order. -/
def names (l : List (String × Value)) : List String := l.map (·.1)

/-! ## Looking up -/

theorem lookupMember_cons_self (name : String) (v : Value)
    (l : List (String × Value)) :
    lookupMember name ((name, v) :: l) = some v := if_pos rfl

theorem lookupMember_cons_of_ne (h : m.1 ≠ name) :
    lookupMember name (m :: l) = lookupMember name l := if_neg h

theorem lookupMember_eq_none_iff :
    lookupMember name l = none ↔ name ∉ names l := by
  induction l with
  | nil => exact ⟨fun _ h => (nomatch h), fun _ => rfl⟩
  | cons m rest ih =>
      obtain ⟨k, w⟩ := m
      by_cases hk : k = name
      · subst hk
        rw [lookupMember_cons_self]
        exact ⟨fun h => (nomatch h),
          fun h => absurd (List.mem_cons_self ..) h⟩
      · rw [lookupMember_cons_of_ne hk, ih]
        constructor
        · intro h hmem
          rcases List.mem_cons.mp hmem with h1 | h1
          · exact hk h1.symm
          · exact h h1
        · intro h hmem
          exact h (List.mem_cons_of_mem _ hmem)

/-- What is looked up under a function on values. -/
theorem lookupMember_map (f : Value → Value) (name : String)
    (l : List (String × Value)) :
    lookupMember name (l.map fun m => (m.1, f m.2))
      = (lookupMember name l).map f := by
  induction l with
  | nil => rfl
  | cons m rest ih =>
      obtain ⟨k, w⟩ := m
      by_cases hk : k = name
      · subst hk
        rw [lookupMember_cons_self, List.map_cons, lookupMember_cons_self]
        rfl
      · rw [List.map_cons, lookupMember_cons_of_ne hk,
          lookupMember_cons_of_ne hk]
        exact ih

/-! ## Inserting -/

/-- An inserted name is looked up as what was inserted last. -/
theorem lookupMember_insertMember (other name : String) (v : Value)
    (l : List (String × Value)) :
    lookupMember other (insertMember name v l)
      = if other = name then some v else lookupMember other l := by
  induction l with
  | nil =>
      by_cases h : other = name
      · rw [if_pos h, h]
        exact lookupMember_cons_self name v []
      · rw [if_neg h]
        exact lookupMember_cons_of_ne (Ne.symm h)
  | cons m rest ih =>
      obtain ⟨k, w⟩ := m
      by_cases hk : k = name
      · subst hk
        rw [insertMember, if_pos rfl]
        by_cases h : other = k
        · rw [if_pos h, h]
          exact lookupMember_cons_self k v rest
        · rw [if_neg h, lookupMember_cons_of_ne (Ne.symm h),
            lookupMember_cons_of_ne (Ne.symm h)]
      · rw [insertMember, if_neg hk]
        by_cases h : other = k
        · subst h
          rw [lookupMember_cons_self, if_neg hk, lookupMember_cons_self]
        · rw [lookupMember_cons_of_ne (Ne.symm h),
            lookupMember_cons_of_ne (Ne.symm h)]
          exact ih

/-- A new name goes behind the others. -/
theorem insertMember_of_not_mem (v : Value) (h : name ∉ names l) :
    insertMember name v l = l ++ [(name, v)] := by
  induction l with
  | nil => rfl
  | cons m rest ih =>
      obtain ⟨k, w⟩ := m
      have hk : k ≠ name := fun hk => h (hk ▸ List.mem_cons_self ..)
      rw [insertMember, if_neg hk,
        ih (fun hmem => h (List.mem_cons_of_mem _ hmem))]
      rfl

/-- A known name keeps its place. -/
theorem names_insertMember_of_mem (v : Value) (h : name ∈ names l) :
    names (insertMember name v l) = names l := by
  induction l with
  | nil => exact nomatch h
  | cons m rest ih =>
      obtain ⟨k, w⟩ := m
      by_cases hk : k = name
      · rw [insertMember, if_pos hk]
        rfl
      · have hrest : name ∈ names rest := by
          rcases List.mem_cons.mp h with h1 | h1
          · exact absurd h1.symm hk
          · exact h1
        rw [insertMember, if_neg hk]
        exact congrArg (k :: ·) (ih hrest)

theorem names_insertMember (name : String) (v : Value)
    (l : List (String × Value)) :
    names (insertMember name v l)
      = if name ∈ names l then names l else names l ++ [name] := by
  by_cases h : name ∈ names l
  · rw [if_pos h, names_insertMember_of_mem v h]
  · rw [if_neg h, insertMember_of_not_mem v h, names, List.map_append]
    rfl

theorem nodup_names_insertMember (h : (names l).Nodup) (name : String)
    (v : Value) : (names (insertMember name v l)).Nodup := by
  rw [names_insertMember]
  by_cases hn : name ∈ names l
  · rw [if_pos hn]
    exact h
  · rw [if_neg hn]
    refine List.nodup_append.mpr ⟨h, by simp, ?_⟩
    intro a ha b hb heq
    rw [List.mem_singleton.mp hb] at heq
    exact hn (heq ▸ ha)

/-- Whatever is inserted into members is a member, and nothing else is new. -/
theorem mem_insertMember (h : m ∈ insertMember name v l) :
    m = (name, v) ∨ m ∈ l := by
  induction l with
  | nil => exact .inl (List.mem_singleton.mp h)
  | cons k rest ih =>
      obtain ⟨k, w⟩ := k
      by_cases hk : k = name
      · rw [insertMember, if_pos hk, hk] at h
        rcases List.mem_cons.mp h with h1 | h1
        · exact .inl h1
        · exact .inr (List.mem_cons_of_mem _ h1)
      · rw [insertMember, if_neg hk] at h
        rcases List.mem_cons.mp h with h1 | h1
        · exact .inr (h1 ▸ List.mem_cons_self ..)
        · rcases ih h1 with h2 | h2
          · exact .inl h2
          · exact .inr (List.mem_cons_of_mem _ h2)

end RiskExchange.Json
