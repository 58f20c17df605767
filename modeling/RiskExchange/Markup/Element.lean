/-! # Elements — XML documents as trees, and as the pieces they are written in

    An element is empty, holds text, or holds elements; the documents of this
    library need no mixed content. Its pieces are its tags and texts in the
    order of the document. -/

namespace RiskExchange.Markup

/-- The attributes of an element, in order. -/
abbrev Attributes := List (String × String)

/-- An XML element. -/
inductive Element where
  | empty (name : String) (attributes : Attributes)
  | text (name : String) (content : String)
  | node (name : String) (attributes : Attributes) (children : List Element)

/-- What is written in one go. -/
inductive Piece where
  | declaration
  | opening (name : String) (attributes : Attributes)
  | closing (name : String)
  | single (name : String) (attributes : Attributes)
  | text (content : String)
  deriving DecidableEq, Repr

namespace Element

/-- An element with children, or an empty one if there are none. -/
def nodeOrEmpty (name : String) (attributes : Attributes) :
    List Element → Element
  | [] => .empty name attributes
  | children => .node name attributes children

mutual

/-- The pieces of an element. -/
def pieces : Element → List Piece
  | .empty name attributes => [.single name attributes]
  | .text name content => [.opening name [], .text content, .closing name]
  | .node name attributes children =>
    .opening name attributes :: piecesAll children ++ [.closing name]
  termination_by structural e => e

/-- The pieces of elements that follow each other. -/
def piecesAll : List Element → List Piece
  | [] => []
  | e :: rest => e.pieces ++ piecesAll rest
  termination_by structural es => es

end

end Element
end RiskExchange.Markup
