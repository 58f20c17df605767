import RiskExchange.Json.Value
import RiskExchange.Proofs.Json.Members
import RiskExchange.Proofs.Json.Trees
import RiskExchange.Proofs.Results

/-! # Rereading — a value that has been read can be printed and read again

    Whatever a reader accepts is `Storable`: its numbers are in range, its
    nesting is within the limit and no object repeats a name. What is printed
    of such a value is accepted again, and it is the same value up to binary
    numbers that do not survive their own text (`value_read_print`). -/

namespace RiskExchange.Json

/-! ## What a printed value is read as -/

mutual

/-- The value that a printed value is read as. -/
def Value.reread : Value → Value
  | .null => .null
  | .bool b => .bool b
  | .number n => .number n.reread
  | .string s => .string s
  | .array items => .array (rereadItems items)
  | .object members => .object (rereadMembers members)
  termination_by structural v => v

/-- The elements that printed elements are read as. -/
def rereadItems : List Value → List Value
  | [] => []
  | v :: rest => v.reread :: rereadItems rest
  termination_by structural items => items

/-- The members that printed members are read as. -/
def rereadMembers : List (String × Value) → List (String × Value)
  | [] => []
  | m :: rest => rereadMember m :: rereadMembers rest
  termination_by structural members => members

/-- The member that a printed member is read as. -/
def rereadMember : String × Value → String × Value
  | (name, v) => (name, v.reread)
  termination_by structural m => m

end

theorem rereadItems_eq_map (items : List Value) :
    rereadItems items = items.map Value.reread := by
  induction items with
  | nil => rfl
  | cons v rest ih =>
      rw [rereadItems, ih]
      rfl

theorem rereadMembers_eq_map (members : List (String × Value)) :
    rereadMembers members = members.map fun m => (m.1, m.2.reread) := by
  induction members with
  | nil => rfl
  | cons m rest ih =>
      obtain ⟨name, v⟩ := m
      rw [rereadMembers, ih]
      rfl

theorem names_rereadMembers (members : List (String × Value)) :
    names (rereadMembers members) = names members := by
  rw [rereadMembers_eq_map, names, names, List.map_map]
  rfl

/-! ## Storable values -/

/-- A value that nests to fewer than the given number of levels, with numbers
    in range and without repeated names. -/
inductive Value.Storable : Nat → Value → Prop where
  | null {depth : Nat} : Storable depth .null
  | bool {depth : Nat} (b : Bool) : Storable depth (.bool b)
  | number {depth : Nat} {n : Number} (h : n.InRange) :
      Storable depth (.number n)
  | string {depth : Nat} (s : String) : Storable depth (.string s)
  | array {depth : Nat} {items : List Value} (hd : 1 < depth)
      (h : ∀ v ∈ items, Storable (depth - 1) v) :
      Storable depth (.array items)
  | object {depth : Nat} {members : List (String × Value)} (hd : 1 < depth)
      (hn : (names members).Nodup)
      (h : ∀ m ∈ members, Storable (depth - 1) m.2) :
      Storable depth (.object members)

variable {depth : Nat} {v : Value} {t : Tree}

/-! ## Printed values are accepted -/

private theorem readItems_itemTrees {items : List Value}
    (h : ∀ v ∈ items, v.tree.read depth = .ok v.reread) :
    readItems depth (itemTrees items) = .ok (rereadItems items) := by
  induction items with
  | nil => rfl
  | cons v rest ih =>
      rw [itemTrees, readItems, h v (List.mem_cons_self ..)]
      change (do return v.reread :: (← readItems depth (itemTrees rest))) = _
      rw [ih (fun w hw => h w (List.mem_cons_of_mem _ hw))]
      rfl

private theorem readMembers_memberTrees {members : List (String × Value)}
    (h : ∀ m ∈ members, m.2.tree.read depth = .ok m.2.reread)
    (done : List (String × Value))
    (hn : (names done ++ names members).Nodup) :
    readMembers depth done (memberTrees members)
      = .ok (done ++ rereadMembers members) := by
  induction members generalizing done with
  | nil =>
      rw [rereadMembers, List.append_nil]
      rfl
  | cons m rest ih =>
      obtain ⟨name, v⟩ := m
      have hv : v.tree.read depth = .ok v.reread :=
        h (name, v) (List.mem_cons_self ..)
      have hmember : readMember depth (memberTree (name, v))
          = .ok (name, v.reread) := by
        rw [memberTree, readMember, read_literalOf]
        change (do return (name, ← v.tree.read depth)) = _
        rw [hv]
        rfl
      -- a name that is read for the first time goes to the end
      have hnew : name ∉ names done := by
        intro hmem
        exact (List.nodup_append.mp hn).2.2 name hmem name
          (List.mem_cons_self ..) rfl
      have hnames : (names (done ++ [(name, v.reread)])
          ++ names rest).Nodup := by
        rw [names, List.map_append, List.append_assoc]
        exact hn
      rw [memberTrees, readMembers, hmember]
      change readMembers depth (insertMember name v.reread done)
        (memberTrees rest) = _
      rw [insertMember_of_not_mem v.reread hnew,
        ih (fun w hw => h w (List.mem_cons_of_mem _ hw)) _ hnames,
        List.append_assoc]
      rfl

/-- The tree of a storable value is accepted. -/
theorem read_tree (h : v.Storable depth) :
    v.tree.read depth = .ok v.reread := by
  induction h with
  | null => rfl
  | bool b => rfl
  | @number depth n h =>
      rw [Value.tree, Tree.read, NumberLiteral.read, Number.ofLiteral_spell h]
      rfl
  | string s =>
      rw [Value.tree, Tree.read, read_literalOf]
      rfl
  | @array depth items hd h ih =>
      rw [Value.tree, Tree.read, if_neg (Nat.not_le.mpr hd)]
      change (readItems (depth - 1) (itemTrees items) >>= _) = _
      rw [readItems_itemTrees ih]
      rfl
  | @object depth members hd hn h ih =>
      rw [Value.tree, Tree.read, if_neg (Nat.not_le.mpr hd)]
      change (readMembers (depth - 1) [] (memberTrees members) >>= _) = _
      rw [readMembers_memberTrees ih [] hn]
      rfl

/-- What is printed of a storable value is accepted as a whole text. -/
theorem value_read_print (h : v.Storable depthLimit) :
    (Document.read (asGlyphs v.print)).value = .ok v.reread := by
  rw [read_print, Document.value, read_tree h]
  rfl

/-! ## What is accepted is storable -/

/-- What holds of a tree if it holds of the trees inside holds of every
    tree. -/
@[elab_as_elim]
theorem Tree.induction {motive : Tree → Prop} (null : motive .null)
    (bool : ∀ b, motive (.bool b)) (number : ∀ n, motive (.number n))
    (string : ∀ s, motive (.string s))
    (array : ∀ items close, (∀ t ∈ items, motive t) →
      motive (.array items close))
    (object : ∀ members close, (∀ m ∈ members, motive m.2) →
      motive (.object members close))
    (broken : ∀ b, motive (.broken b)) (t : Tree) : motive t := by
  -- the recursor also asks for lists of trees and of members
  refine Tree.rec (motive_1 := motive)
    (motive_2 := fun items => ∀ t ∈ items, motive t)
    (motive_3 := fun members => ∀ m ∈ members, motive m.2)
    (motive_4 := fun m => motive m.2)
    null bool number string (fun items close h => array items close h)
    (fun members close h => object members close h) broken ?_ ?_ ?_ ?_ ?_ t
  · intro t ht
    exact nomatch ht
  · intro head tail hhead htail
    exact List.forall_mem_cons.mpr ⟨hhead, htail⟩
  · intro m hm
    exact nomatch hm
  · intro head tail hhead htail
    exact List.forall_mem_cons.mpr ⟨hhead, htail⟩
  · intro key t ht
    exact ht

/-- Whatever is read from the tree is storable. -/
def ReadsStorable (t : Tree) : Prop :=
  ∀ depth v, t.read depth = .ok v → v.Storable depth

private theorem storable_of_readItems {items : List Tree}
    (ih : ∀ t ∈ items, ReadsStorable t) {vs : List Value}
    (h : readItems depth items = .ok vs) : ∀ v ∈ vs, v.Storable depth := by
  induction items generalizing vs with
  | nil =>
      cases h
      exact fun v hv => nomatch hv
  | cons t rest ihrest =>
      rw [readItems] at h
      obtain ⟨v, hv, h⟩ := bind_eq_ok h
      obtain ⟨ws, hws, h⟩ := bind_eq_ok h
      cases h
      refine List.forall_mem_cons.mpr ⟨?_, ?_⟩
      · exact ih t (List.mem_cons_self ..) depth v hv
      · exact ihrest (fun u hu => ih u (List.mem_cons_of_mem _ hu)) hws

private theorem storable_of_readMembers
    {members : List (StringLiteral × Tree)}
    (ih : ∀ m ∈ members, ReadsStorable m.2)
    {done vs : List (String × Value)} (hn : (names done).Nodup)
    (hd : ∀ m ∈ done, m.2.Storable depth)
    (h : readMembers depth done members = .ok vs) :
    (names vs).Nodup ∧ ∀ m ∈ vs, m.2.Storable depth := by
  induction members generalizing done with
  | nil =>
      cases h
      exact ⟨hn, hd⟩
  | cons m rest ihrest =>
      obtain ⟨key, t⟩ := m
      rw [readMembers] at h
      obtain ⟨⟨name, v⟩, hm, h⟩ := bind_eq_ok h
      rw [readMember] at hm
      obtain ⟨name', -, hm⟩ := bind_eq_ok hm
      obtain ⟨v', hv, hm⟩ := bind_eq_ok hm
      cases hm
      have hstorable : v.Storable depth :=
        ih (key, t) (List.mem_cons_self ..) depth v hv
      refine ihrest (fun u hu => ih u (List.mem_cons_of_mem _ hu))
        (nodup_names_insertMember hn name v) ?_ h
      intro m hmem
      rcases mem_insertMember hmem with rfl | hmem
      · exact hstorable
      · exact hd m hmem

theorem Close.eq_closed_of_listFault {close : Close} {u : Unit}
    (h : check close.listFault? = .ok u) : close = .closed := by
  cases close <;> first | rfl | exact nomatch h

theorem Close.eq_closed_of_objectFault {close : Close} {u : Unit}
    (h : check close.objectFault? = .ok u) : close = .closed := by
  cases close <;> first | rfl | exact nomatch h

/-- An array that is accepted has its bracket, and its elements are
    accepted. -/
theorem read_array_eq_ok {items : List Tree} {close : Close}
    (h : (Tree.array items close).read depth = .ok v) :
    1 < depth ∧ close = .closed ∧
      ∃ vs, readItems (depth - 1) items = .ok vs ∧ v = .array vs := by
  rw [Tree.read] at h
  by_cases hd : depth ≤ 1
  · rw [if_pos hd] at h
    exact nomatch h
  · rw [if_neg hd] at h
    obtain ⟨-, -, h⟩ := bind_eq_ok h
    obtain ⟨vs, hvs, h⟩ := bind_eq_ok h
    obtain ⟨_, hclose, h⟩ := bind_eq_ok h
    exact ⟨Nat.not_le.mp hd, Close.eq_closed_of_listFault hclose, vs, hvs,
      (Except.ok.inj h).symm⟩

/-- An array is accepted if its elements are and it does not nest too deep. -/
theorem read_array {items : List Tree} {vs : List Value} (hd : 1 < depth)
    (h : readItems (depth - 1) items = .ok vs) :
    (Tree.array items .closed).read depth = .ok (.array vs) := by
  rw [Tree.read, if_neg (Nat.not_le.mpr hd), h]
  rfl

/-- An object that is accepted has its bracket, and its members are
    accepted. -/
theorem read_object_eq_ok {members : List (StringLiteral × Tree)}
    {close : Close} (h : (Tree.object members close).read depth = .ok v) :
    1 < depth ∧ close = .closed ∧
      ∃ vs, readMembers (depth - 1) [] members = .ok vs ∧ v = .object vs := by
  rw [Tree.read] at h
  by_cases hd : depth ≤ 1
  · rw [if_pos hd] at h
    exact nomatch h
  · rw [if_neg hd] at h
    obtain ⟨-, -, h⟩ := bind_eq_ok h
    obtain ⟨vs, hvs, h⟩ := bind_eq_ok h
    obtain ⟨_, hclose, h⟩ := bind_eq_ok h
    exact ⟨Nat.not_le.mp hd, Close.eq_closed_of_objectFault hclose, vs, hvs,
      (Except.ok.inj h).symm⟩

/-- Whatever a reader accepts is storable. -/
theorem storable_of_read (t : Tree) : ReadsStorable t := by
  induction t using Tree.induction with
  | null =>
      rintro depth v ⟨⟩
      exact .null
  | bool b =>
      rintro depth v ⟨⟩
      exact .bool b
  | number n =>
      intro depth v h
      rw [Tree.read] at h
      obtain ⟨x, hx, h⟩ := bind_eq_ok h
      cases h
      rw [NumberLiteral.read] at hx
      cases hn : Number.ofLiteral n with
      | none =>
          rw [hn] at hx
          exact nomatch hx
      | some y =>
          rw [hn] at hx
          cases hx
          exact .number (Number.inRange_of_ofLiteral hn)
  | string s =>
      intro depth v h
      rw [Tree.read] at h
      obtain ⟨text, -, h⟩ := bind_eq_ok h
      cases h
      exact .string text
  | array items close ih =>
      intro depth v h
      obtain ⟨hd, -, vs, hvs, rfl⟩ := read_array_eq_ok h
      exact .array hd (storable_of_readItems ih hvs)
  | object members close ih =>
      intro depth v h
      obtain ⟨hd, -, vs, hvs, rfl⟩ := read_object_eq_ok h
      have hnil : (names []).Nodup := List.nodup_nil
      obtain ⟨hn, hs⟩ := storable_of_readMembers ih hnil
        (fun m hm => nomatch hm) hvs
      exact .object hd hn hs
  | broken b =>
      intro depth v h
      exact nomatch h

/-- The value of an accepted text is storable. -/
theorem storable_of_value {d : Document} (h : d.value = .ok v) :
    v.Storable depthLimit := by
  rw [Document.value] at h
  obtain ⟨w, hw, h⟩ := bind_eq_ok h
  by_cases ht : d.trailing = true
  · rw [if_pos ht] at h
    exact nomatch h
  · rw [if_neg ht] at h
    cases h
    exact storable_of_read d.root depthLimit _ hw

end RiskExchange.Json
