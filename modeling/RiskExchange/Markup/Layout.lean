import RiskExchange.Markup.Element
import RiskExchange.Markup.Escape

/-! # Layout — pieces on lines of their own, indented by depth

    With an indent, every tag begins a line, except the first and the one
    behind a text; without one, everything stands on one line. -/

namespace RiskExchange.Markup

/-- The attributes inside a tag. -/
def attributesText (attributes : Attributes) : List Char :=
  attributes.flatMap fun (name, value) =>
    ' ' :: name.toList ++ '=' :: '"' :: escape value ++ ['"']

/-- The declaration at the top of a document. -/
def declarationText : String := "<?xml version=\"1.0\" encoding=\"UTF-8\"?>"

/-- A piece as it is written. -/
def Piece.written : Piece → List Char
  | .declaration => declarationText.toList
  | .opening name attributes =>
    '<' :: name.toList ++ attributesText attributes ++ ['>']
  | .closing name => '<' :: '/' :: name.toList ++ ['>']
  | .single name attributes =>
    '<' :: name.toList ++ attributesText attributes ++ ['/', '>']
  | .text content => escape content

/-- A position in a document: the number of open elements, and whether a tag
    begins a new line here. -/
structure Cursor where
  depth : Nat
  breakDue : Bool
  deriving DecidableEq, Repr

/-- The position before the first piece. -/
def Cursor.start : Cursor := ⟨0, false⟩

/-- The depth at which a piece stands. -/
def Piece.depth (p : Cursor) : Piece → Nat
  | .closing _ => p.depth - 1
  | _ => p.depth

/-- The position behind a piece. -/
def Cursor.after (p : Cursor) : Piece → Cursor
  | .opening _ _ => ⟨p.depth + 1, true⟩
  | .closing _ => ⟨p.depth - 1, true⟩
  | .text _ => ⟨p.depth, false⟩
  | _ => ⟨p.depth, true⟩

/-- The line break in front of a piece. -/
def breakBefore (indent : Nat) (p : Cursor) : Piece → List Char
  | .text _ => []
  | piece =>
    if indent ≠ 0 ∧ p.breakDue then
      '\n' :: List.replicate (indent * piece.depth p) ' '
    else []

/-- The pieces with their line breaks, one chunk each. -/
def chunks (indent : Nat) : Cursor → List Piece → List (List Char)
  | _, [] => []
  | p, piece :: rest =>
    (breakBefore indent p piece ++ piece.written)
      :: chunks indent (p.after piece) rest

/-- The text of pieces. -/
def render (indent : Nat) (pieces : List Piece) : String :=
  String.ofList (chunks indent .start pieces).flatten

end RiskExchange.Markup
