import RiskExchange.Proofs.Json.NumberText
import RiskExchange.Proofs.Json.Parsing
import RiskExchange.Proofs.Json.Strings

/-! # Trees — a printed value is parsed into its tree

    `Value.tree` is the tree of what a value is printed as, which is one way to
    spell it (`spells_print`). So a whole printed value is parsed into its tree
    with nothing left (`read_print`). -/

namespace RiskExchange.Json

/-! ## Induction over values -/

/-- What holds of a value if it holds of the values inside holds of every
    value. -/
@[elab_as_elim]
theorem Value.induction {motive : Value → Prop} (null : motive .null)
    (bool : ∀ b, motive (.bool b)) (number : ∀ n, motive (.number n))
    (string : ∀ s, motive (.string s))
    (array : ∀ items, (∀ v ∈ items, motive v) → motive (.array items))
    (object : ∀ members, (∀ m ∈ members, motive m.2) →
      motive (.object members)) (v : Value) : motive v := by
  refine Value.rec (motive_1 := motive)
    (motive_2 := fun items => ∀ v ∈ items, motive v)
    (motive_3 := fun members => ∀ m ∈ members, motive m.2)
    (motive_4 := fun m => motive m.2)
    null bool number string array object ?_ ?_ ?_ ?_ ?_ v
  · intro v hv
    exact nomatch hv
  · intro head tail hhead htail
    exact List.forall_mem_cons.mpr ⟨hhead, htail⟩
  · intro m hm
    exact nomatch hm
  · intro head tail hhead htail
    exact List.forall_mem_cons.mpr ⟨hhead, htail⟩
  · intro name v hv
    exact hv

/-! ## The tree of a value -/

mutual

/-- The tree that a printed value is parsed into. -/
def Value.tree : Value → Tree
  | .null => .null
  | .bool b => .bool b
  | .number n => .number n.spell
  | .string s => .string (literalOf s)
  | .array items => .array (itemTrees items) .closed
  | .object members => .object (memberTrees members) .closed
  termination_by structural v => v

/-- The trees of the elements of an array. -/
def itemTrees : List Value → List Tree
  | [] => []
  | v :: rest => v.tree :: itemTrees rest
  termination_by structural items => items

/-- The trees of the members of an object. -/
def memberTrees : List (String × Value) → List (StringLiteral × Tree)
  | [] => []
  | m :: rest => memberTree m :: memberTrees rest
  termination_by structural members => members

/-- The tree of one member. -/
def memberTree : String × Value → StringLiteral × Tree
  | (name, v) => (literalOf name, v.tree)
  termination_by structural m => m

end

/-! ## Spelling -/

/-- An element as it is printed, without any space. -/
def printedItem (v : Value) : ItemPart := ⟨v.tree, [], v.print, []⟩

/-- A member as it is printed. -/
def printedMember (m : String × Value) : MemberPart :=
  ⟨literalOf m.1, m.2.tree, [], printString m.1, [], [], m.2.print, []⟩

private theorem blank_nil : Blank [] := by
  intro c hc
  exact nomatch hc

private theorem itemTrees_eq_map (items : List Value) :
    itemTrees items = (items.map printedItem).map (·.tree) := by
  induction items with
  | nil => rfl
  | cons v rest ih =>
      rw [itemTrees, ih]
      rfl

private theorem printItems_eq_commaText (items : List Value) :
    printItems items = commaText ((items.map printedItem).map (·.written)) := by
  have hmore (rest : List Value) : printMoreItems rest
      = ((rest.map printedItem).map (·.written)).flatMap (',' :: ·) := by
    induction rest with
    | nil => rfl
    | cons v rest ih =>
        rw [printMoreItems, ih]
        simp [printedItem, ItemPart.written]
  cases items with
  | nil => rfl
  | cons v rest =>
      rw [printItems, hmore]
      simp [commaText, printedItem, ItemPart.written]

private theorem spells_array {items : List Value}
    (ih : ∀ v ∈ items, Spells v.tree v.print) :
    Spells (Value.array items).tree (Value.array items).print := by
  rw [Value.tree, Value.print, itemTrees_eq_map, printItems_eq_commaText]
  cases items with
  | nil => exact .emptyArray blank_nil
  | cons v rest =>
      refine .array (List.cons_ne_nil _ _) ?_ ?_
      · exact List.forall_mem_map.mpr fun v _ => ⟨blank_nil, blank_nil⟩
      · exact List.forall_mem_map.mpr ih

private theorem memberTrees_eq_map (members : List (String × Value)) :
    memberTrees members
      = (members.map printedMember).map fun p => (p.key, p.tree) := by
  induction members with
  | nil => rfl
  | cons m rest ih =>
      obtain ⟨name, v⟩ := m
      rw [memberTrees, ih]
      rfl

private theorem printMembers_eq_commaText (members : List (String × Value)) :
    printMembers members
      = commaText ((members.map printedMember).map (·.written)) := by
  have hmember (m : String × Value) :
      printMember m = (printedMember m).written := by
    obtain ⟨name, v⟩ := m
    simp [printMember, printedMember, MemberPart.written]
  have hmore (rest : List (String × Value)) : printMoreMembers rest
      = ((rest.map printedMember).map (·.written)).flatMap (',' :: ·) := by
    induction rest with
    | nil => rfl
    | cons m rest ih =>
        rw [printMoreMembers, ih, hmember]
        rfl
  cases members with
  | nil => rfl
  | cons m rest =>
      rw [printMembers, hmore, hmember]
      rfl

private theorem spells_object {members : List (String × Value)}
    (ih : ∀ m ∈ members, Spells m.2.tree m.2.print) :
    Spells (Value.object members).tree (Value.object members).print := by
  rw [Value.tree, Value.print, memberTrees_eq_map, printMembers_eq_commaText]
  cases members with
  | nil => exact .emptyObject blank_nil
  | cons m rest =>
      refine .object (List.cons_ne_nil _ _) ?_ ?_ ?_
      · exact List.forall_mem_map.mpr fun m _ =>
          ⟨blank_nil, blank_nil, blank_nil, blank_nil⟩
      · exact List.forall_mem_map.mpr fun m _ => spellsString_print m.1
      · exact List.forall_mem_map.mpr ih

/-- A printed value spells its tree. -/
theorem spells_print (v : Value) : Spells v.tree v.print := by
  induction v using Value.induction with
  | null => exact .null
  | bool b =>
      cases b with
      | false => exact .false
      | true => exact .true
  | number n =>
      refine .number ?_
      rw [Value.print, ← Number.chars_spell]
      exact spellsNumber_chars (Number.wellSpelled_spell n)
  | string s => exact .string (spellsString_print s)
  | array items ih => exact spells_array ih
  | object members ih => exact spells_object ih

/-- A printed value is parsed into its tree, and nothing follows. -/
theorem read_print (v : Value) :
    Document.read (asGlyphs v.print) = ⟨v.tree, false⟩ := by
  have h : IsJson v.tree ([] ++ v.print ++ []) :=
    .intro blank_nil (spells_print v) blank_nil
  rw [List.append_nil] at h
  exact read_of_isJson h

end RiskExchange.Json
