import RiskExchange.Proofs.Markup.Spelling

/-! # Schemas — which elements stand inside which

    A schema has a rule for each name of an element: what attributes there are
    and which elements are inside, in order. An element without anything inside
    is an empty element. If a schema gives nothing but names, whatever conforms
    to it can be spelled (`Conforms.proper`). -/

namespace RiskExchange.Markup

/-- The name of an element. -/
def Element.name : Element → String
  | .empty name _ | .text name _ | .node name _ _ => name

/-- Elements that stand side by side: one of some names, or any number of
    one name. -/
inductive Particle where
  | one (names : List String)
  | many (name : String)
  deriving DecidableEq, Repr

/-- The names follow each other as the particles do. -/
inductive Follow : List Particle → List String → Prop where
  | nil : Follow [] []
  | one {names : List String} {rest : List Particle} {name : String}
      {more : List String} (hn : name ∈ names) (h : Follow rest more) :
      Follow (.one names :: rest) (name :: more)
  | many {name : String} {rest : List Particle} {more : List String}
      (count : Nat) (h : Follow rest more) :
      Follow (.many name :: rest) (List.replicate count name ++ more)

/-- What is inside an element. -/
inductive Content where
  | text
  | elements (particles : List Particle)
  deriving DecidableEq, Repr

/-- The elements of a name: the names of their attributes, and what is
    inside. -/
structure Rule where
  name : String
  attributes : List String
  content : Content
  deriving DecidableEq, Repr

/-- The rules for the elements of a document. -/
abbrev Schema := List Rule

/-- The element and all elements inside obey the rules. -/
inductive Conforms (schema : Schema) : Element → Prop where
  | empty {r : Rule} {attributes : Attributes} {particles : List Particle}
      (hr : r ∈ schema) (ha : attributes.map (·.1) = r.attributes)
      (hc : r.content = .elements particles) (hf : Follow particles []) :
      Conforms schema (.empty r.name attributes)
  | text {r : Rule} (hr : r ∈ schema) (ha : r.attributes = [])
      (hc : r.content = .text) (content : String) :
      Conforms schema (.text r.name content)
  | node {r : Rule} {attributes : Attributes} {particles : List Particle}
      {children : List Element} (hr : r ∈ schema)
      (ha : attributes.map (·.1) = r.attributes)
      (hc : r.content = .elements particles) (hne : children ≠ [])
      (hf : Follow particles (children.map (·.name)))
      (h : ∀ e ∈ children, Conforms schema e) :
      Conforms schema (.node r.name attributes children)

/-! ## Elements that follow each other -/

variable {rest : List Particle} {names more : List String} {name : String}

theorem Follow.many_of_mem (hn : ∀ n ∈ names, n = name)
    (h : Follow rest more) : Follow (.many name :: rest) (names ++ more) := by
  rw [List.eq_replicate_of_mem hn]
  exact .many _ h

/-- What is made of a list, all under one name, and then what follows. -/
theorem Follow.many_map {α : Type} {f : α → Element}
    (hf : ∀ a, (f a).name = name) (as : List α)
    {es : List Element} (h : Follow rest (es.map (·.name))) :
    Follow (.many name :: rest) ((as.map f ++ es).map (·.name)) := by
  rw [List.map_append]
  refine .many_of_mem ?_ h
  intro n hn
  rw [List.map_map] at hn
  obtain ⟨a, -, rfl⟩ := List.mem_map.mp hn
  exact hf a

/-- The same where nothing follows. -/
theorem Follow.many_map_nil {α : Type} {f : α → Element}
    (hf : ∀ a, (f a).name = name) (as : List α) :
    Follow [.many name] ((as.map f).map (·.name)) := by
  have h : Follow [.many name] ((as.map f ++ []).map Element.name) :=
    many_map hf as .nil
  rwa [List.append_nil] at h

/-! ## Elements that conform -/

variable {schema : Schema}

theorem Conforms.nodeOrEmpty {r : Rule} {attributes : Attributes}
    {particles : List Particle} {children : List Element} (hr : r ∈ schema)
    (ha : attributes.map (·.1) = r.attributes)
    (hc : r.content = .elements particles)
    (hf : Follow particles (children.map (·.name)))
    (h : ∀ e ∈ children, Conforms schema e) :
    Conforms schema (.nodeOrEmpty r.name attributes children) := by
  cases children with
  | nil => exact .empty hr ha hc hf
  | cons e rest => exact .node hr ha hc (List.cons_ne_nil e rest) hf h

/-- The rules give nothing but names, and no attribute twice. -/
def Schema.Proper (schema : Schema) : Prop :=
  ∀ r ∈ schema, IsName r.name.toList ∧
    (∀ a ∈ r.attributes, IsName a.toList) ∧ r.attributes.Nodup

instance (schema : Schema) : Decidable schema.Proper :=
  inferInstanceAs (Decidable (∀ r ∈ schema, _))

private theorem properAttributes {attributes : Attributes} {r : Rule}
    (hs : schema.Proper) (hr : r ∈ schema)
    (ha : attributes.map (·.1) = r.attributes) :
    ProperAttributes attributes := by
  obtain ⟨-, hnames, hnodup⟩ := hs r hr
  rw [← ha] at hnames hnodup
  refine ⟨?_, hnodup⟩
  intro a hmem
  exact hnames a.1 (List.mem_map_of_mem hmem)

/-- An element that conforms to a schema can be spelled. -/
theorem Conforms.proper (hs : schema.Proper) {e : Element}
    (h : Conforms schema e) : e.Proper := by
  induction h with
  | empty hr ha hc hf => exact .empty (hs _ hr).1 (properAttributes hs hr ha)
  | text hr ha hc content => exact .text (hs _ hr).1 content
  | node hr ha hc hne hf h ih =>
      exact .node (hs _ hr).1 (properAttributes hs hr ha) hne ih

end RiskExchange.Markup
