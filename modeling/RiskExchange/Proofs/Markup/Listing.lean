import RiskExchange.Proofs.Markup.Schema

/-! # Listing — the elements of a document in their order

    An element comes before those inside it, and these are in the order in
    which they are written. What is asked for are the elements of one name
    (`Element.named`), wherever they stand. -/

namespace RiskExchange.Markup.Element

/-- The attributes of an element. -/
def attributes : Element → Attributes
  | .empty _ attributes | .node _ attributes _ => attributes
  | .text _ _ => []

mutual

/-- The element and all elements inside. -/
def listed : Element → List Element
  | .empty name attributes => [.empty name attributes]
  | .text name content => [.text name content]
  | .node name attributes children =>
    .node name attributes children :: listedAll children
  termination_by structural e => e

/-- Elements that follow each other, each with all elements inside. -/
def listedAll : List Element → List Element
  | [] => []
  | e :: rest => e.listed ++ listedAll rest
  termination_by structural es => es

end

theorem listedAll_eq_flatMap (es : List Element) :
    listedAll es = es.flatMap listed := by
  induction es with
  | nil => rfl
  | cons e rest ih => rw [listedAll, ih, List.flatMap_cons]

/-- The elements of a name. -/
def named (name : String) (e : Element) : List Element :=
  e.listed.filter (·.name = name)

variable {name n : String} {as : Attributes} {children : List Element}

theorem named_empty (h : n ≠ name) : (empty n as).named name = [] :=
  List.filter_cons_of_neg (mt of_decide_eq_true h)

theorem named_text (h : n ≠ name) (content : String) :
    (text n content).named name = [] :=
  List.filter_cons_of_neg (mt of_decide_eq_true h)

/-- The elements of a name inside an element are those inside its children. -/
theorem filter_listedAll (name : String) (children : List Element) :
    (listedAll children).filter (·.name = name)
      = children.flatMap (named name) := by
  rw [listedAll_eq_flatMap, List.filter_flatMap]
  rfl

theorem named_node (h : n ≠ name) :
    (node n as children).named name = children.flatMap (named name) := by
  rw [← filter_listedAll]
  exact List.filter_cons_of_neg (mt of_decide_eq_true h)

theorem named_node_self : (node name as children).named name
    = node name as children :: children.flatMap (named name) := by
  rw [← filter_listedAll]
  exact List.filter_cons_of_pos (decide_eq_true rfl)

theorem named_nodeOrEmpty (h : n ≠ name) :
    (nodeOrEmpty n as children).named name
      = children.flatMap (named name) := by
  cases children with
  | nil => exact named_empty h
  | cons e rest => exact named_node h

theorem named_nodeOrEmpty_self : (nodeOrEmpty name as children).named name
    = nodeOrEmpty name as children :: children.flatMap (named name) := by
  cases children with
  | nil => exact List.filter_cons_of_pos (decide_eq_true rfl)
  | cons e rest => exact named_node_self

end RiskExchange.Markup.Element
