import RiskExchange.Proofs.Json.Rereading

/-! # Data — what a text says, apart from how it is spelled

    The datum of a text keeps the nesting, the order of members, the strings
    and the numerals, and forgets white space and the spelling of strings. What
    numerals stand for is left open: over `NumberLiteral` they are kept as they
    are spelled, and `map` puts something else in their places. A tree has a
    datum if it is whole, and so does every printed value (`datum?_tree`). -/

namespace RiskExchange.Json

/-- What a text says. -/
inductive Datum (α : Type) where
  | null
  | bool (b : Bool)
  | number (a : α)
  | string (s : String)
  | array (items : List (Datum α))
  | object (members : List (String × Datum α))

variable {α β γ : Type}

namespace Datum

/-! ## Numerals of a datum -/

mutual

/-- The datum with a function of each numeral in its place. -/
def map (f : α → β) : Datum α → Datum β
  | .null => .null
  | .bool b => .bool b
  | .number a => .number (f a)
  | .string s => .string s
  | .array items => .array (mapItems f items)
  | .object members => .object (mapMembers f members)
  termination_by structural D => D

/-- The elements with a function of each numeral in its place. -/
def mapItems (f : α → β) : List (Datum α) → List (Datum β)
  | [] => []
  | D :: rest => D.map f :: mapItems f rest
  termination_by structural items => items

/-- The members with a function of each numeral in its place. -/
def mapMembers (f : α → β) : List (String × Datum α) → List (String × Datum β)
  | [] => []
  | m :: rest => mapMember f m :: mapMembers f rest
  termination_by structural members => members

/-- The member with a function of each numeral in its place. -/
def mapMember (f : α → β) : String × Datum α → String × Datum β
  | (name, D) => (name, D.map f)
  termination_by structural m => m

end

theorem mapItems_eq_map (f : α → β) (items : List (Datum α)) :
    mapItems f items = items.map (map f) := by
  induction items with
  | nil => rfl
  | cons D rest ih =>
      rw [mapItems, ih]
      rfl

theorem mapMembers_eq_map (f : α → β) (members : List (String × Datum α)) :
    mapMembers f members = members.map fun m => (m.1, m.2.map f) := by
  induction members with
  | nil => rfl
  | cons m rest ih =>
      obtain ⟨name, D⟩ := m
      rw [mapMembers, ih]
      rfl

/-- The numeral stands somewhere in the datum. -/
inductive Mentions (a : α) : Datum α → Prop where
  | number : Mentions a (.number a)
  | item {items : List (Datum α)} {D : Datum α} (hmem : D ∈ items)
      (h : Mentions a D) : Mentions a (.array items)
  | member {members : List (String × Datum α)} {m : String × Datum α}
      (hmem : m ∈ members) (h : Mentions a m.2) : Mentions a (.object members)

/-- No object in the datum repeats a name. -/
inductive Distinct : Datum α → Prop where
  | null : Distinct .null
  | bool (b : Bool) : Distinct (.bool b)
  | number (a : α) : Distinct (.number a)
  | string (s : String) : Distinct (.string s)
  | array {items : List (Datum α)} (h : ∀ D ∈ items, Distinct D) :
      Distinct (.array items)
  | object {members : List (String × Datum α)}
      (hn : (members.map (·.1)).Nodup) (h : ∀ m ∈ members, Distinct m.2) :
      Distinct (.object members)

/-- What holds of a datum if it holds of the data inside holds of every
    datum. -/
@[elab_as_elim]
theorem induction {motive : Datum α → Prop} (null : motive .null)
    (bool : ∀ b, motive (.bool b)) (number : ∀ a, motive (.number a))
    (string : ∀ s, motive (.string s))
    (array : ∀ items, (∀ D ∈ items, motive D) → motive (.array items))
    (object : ∀ members, (∀ m ∈ members, motive m.2) →
      motive (.object members)) (D : Datum α) : motive D := by
  -- the recursor also asks for lists of data and of members
  refine Datum.rec (motive_1 := motive)
    (motive_2 := fun items => ∀ D ∈ items, motive D)
    (motive_3 := fun members => ∀ m ∈ members, motive m.2)
    (motive_4 := fun m => motive m.2)
    null bool number string array object ?_ ?_ ?_ ?_ ?_ D
  · intro D hD
    exact nomatch hD
  · intro head tail hhead htail
    exact List.forall_mem_cons.mpr ⟨hhead, htail⟩
  · intro m hm
    exact nomatch hm
  · intro head tail hhead htail
    exact List.forall_mem_cons.mpr ⟨hhead, htail⟩
  · intro name D hD
    exact hD

theorem map_map (f : α → β) (g : β → γ) (D : Datum α) :
    (D.map f).map g = D.map (g ∘ f) := by
  induction D using Datum.induction with
  | null => rfl
  | bool b => rfl
  | number a => rfl
  | string s => rfl
  | array items ih =>
      simp only [map, mapItems_eq_map, List.map_map]
      exact congrArg Datum.array (List.map_congr_left ih)
  | object members ih =>
      simp only [map, mapMembers_eq_map, List.map_map]
      refine congrArg Datum.object (List.map_congr_left ?_)
      intro m hm
      exact congrArg (Prod.mk m.1) (ih m hm)

/-- Two functions make the same of a datum exactly if they agree on every
    numeral that it mentions. -/
theorem map_eq_map_iff {f g : α → β} (D : Datum α) :
    D.map f = D.map g ↔ ∀ a, D.Mentions a → f a = g a := by
  induction D using Datum.induction with
  | null => exact ⟨fun _ a h => (nomatch h), fun _ => rfl⟩
  | bool b => exact ⟨fun _ a h => (nomatch h), fun _ => rfl⟩
  | string s => exact ⟨fun _ a h => (nomatch h), fun _ => rfl⟩
  | number b =>
      constructor
      · rintro h a ⟨⟩
        exact Datum.number.inj h
      · intro h
        exact congrArg Datum.number (h b .number)
  | array items ih =>
      simp only [map, mapItems_eq_map, Datum.array.injEq, List.map_inj_left]
      constructor
      · rintro h a (_ | ⟨hmem, ha⟩)
        exact (ih _ hmem).mp (h _ hmem) a ha
      · intro h D hmem
        exact (ih D hmem).mpr (fun a ha => h a (.item hmem ha))
  | object members ih =>
      simp only [map, mapMembers_eq_map, Datum.object.injEq,
        List.map_inj_left, Prod.mk.injEq, true_and]
      constructor
      · rintro h a (_ | _ | ⟨hmem, ha⟩)
        exact (ih _ hmem).mp (h _ hmem) a ha
      · intro h m hmem
        exact (ih m hmem).mpr (fun a ha => h a (.member hmem ha))

/-- The value of a member of an object; of several members of one name the
    last one counts. -/
def member? (name : String) : Datum α → Option (Datum α)
  | .object members => members.reverse.lookup name
  | _ => none

/-- The numeral that a datum is, if it is one. -/
def number? : Datum α → Option α
  | .number a => some a
  | _ => none

theorem eq_number_of_number? {D : Datum α} {a : α} (h : D.number? = some a) :
    D = .number a := by
  cases D with
  | number b => exact congrArg Datum.number (Option.some.inj h)
  | null => exact nomatch h
  | bool b => exact nomatch h
  | string s => exact nomatch h
  | array items => exact nomatch h
  | object members => exact nomatch h

end Datum

/-! ## The datum of a tree -/

mutual

/-- The datum of a tree, if the tree is whole. -/
def Tree.datum? : Tree → Option (Datum NumberLiteral)
  | .null => some .null
  | .bool b => some (.bool b)
  | .number n => some (.number n)
  | .string s => s.read.toOption.map .string
  | .array items close =>
    if close = .closed then (itemData? items).map .array else none
  | .object members close =>
    if close = .closed then (memberData? members).map .object else none
  | .broken _ => none
  termination_by structural t => t

/-- The data of the elements of an array. -/
def itemData? : List Tree → Option (List (Datum NumberLiteral))
  | [] => some []
  | t :: rest => do return (← t.datum?) :: (← itemData? rest)
  termination_by structural items => items

/-- The data of the members of an object. -/
def memberData? : List (StringLiteral × Tree) →
    Option (List (String × Datum NumberLiteral))
  | [] => some []
  | m :: rest => do return (← memberDatum? m) :: (← memberData? rest)
  termination_by structural members => members

/-- The datum of one member. -/
def memberDatum? : StringLiteral × Tree →
    Option (String × Datum NumberLiteral)
  | (key, t) => do return (← key.read.toOption, ← t.datum?)
  termination_by structural m => m

end

mutual

/-- The datum of what is printed of a value. -/
def Value.datum : Value → Datum NumberLiteral
  | .null => .null
  | .bool b => .bool b
  | .number n => .number n.spell
  | .string s => .string s
  | .array items => .array (itemData items)
  | .object members => .object (memberData members)
  termination_by structural v => v

/-- The data of printed elements. -/
def itemData : List Value → List (Datum NumberLiteral)
  | [] => []
  | v :: rest => v.datum :: itemData rest
  termination_by structural items => items

/-- The data of printed members. -/
def memberData : List (String × Value) → List (String × Datum NumberLiteral)
  | [] => []
  | m :: rest => memberDatum m :: memberData rest
  termination_by structural members => members

/-- The datum of a printed member. -/
def memberDatum : String × Value → String × Datum NumberLiteral
  | (name, v) => (name, v.datum)
  termination_by structural m => m

end

theorem memberData_eq_map (members : List (String × Value)) :
    memberData members = members.map fun m => (m.1, m.2.datum) := by
  induction members with
  | nil => rfl
  | cons m rest ih =>
      obtain ⟨name, v⟩ := m
      rw [memberData, ih]
      rfl

/-- The tree of a printed value has the datum of the value. -/
theorem datum?_tree (v : Value) : v.tree.datum? = some v.datum := by
  induction v using Value.induction with
  | null => rfl
  | bool b => rfl
  | number n => rfl
  | string s =>
      rw [Value.tree, Tree.datum?, read_literalOf]
      rfl
  | array items ih =>
      have hitems : itemData? (itemTrees items) = some (itemData items) := by
        induction items with
        | nil => rfl
        | cons v rest ihrest =>
            rw [itemTrees, itemData?, ih v (List.mem_cons_self ..),
              ihrest (fun w hw => ih w (List.mem_cons_of_mem _ hw))]
            rfl
      rw [Value.tree, Tree.datum?, if_pos rfl, hitems]
      rfl
  | object members ih =>
      have hmembers : memberData? (memberTrees members)
          = some (memberData members) := by
        induction members with
        | nil => rfl
        | cons m rest ihrest =>
            obtain ⟨name, v⟩ := m
            have hv : v.tree.datum? = some v.datum :=
              ih (name, v) (List.mem_cons_self ..)
            rw [memberTrees, memberData?, memberTree, memberDatum?,
              read_literalOf, hv,
              ihrest (fun w hw => ih w (List.mem_cons_of_mem _ hw))]
            rfl
      rw [Value.tree, Tree.datum?, if_pos rfl, hmembers]
      rfl

end RiskExchange.Json
