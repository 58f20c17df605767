/-! # Identifiers — the names of the entities of a model

    A solver numbers the records of each kind on their own, so an entity's name
    is its raw id behind a mark for its kind. No mark begins another, which is
    why names of different kinds never meet; the one name without an id is that
    of the top gate of every fault tree. -/

namespace RiskExchange

/-- The kinds of named entity, in the order in which their names sort. -/
inductive Tag where
  | initiatingEvent
  | functionalEvent
  | faultTree
  | gate
  | basicEvent
  | sequence
  deriving DecidableEq, Repr

namespace Tag

/-- Every kind, those with longer marks first. -/
def all : List Tag :=
  [.initiatingEvent, .functionalEvent, .faultTree, .basicEvent, .gate,
    .sequence]

/-- The letters in front of a raw id. -/
def mark : Tag → String
  | .initiatingEvent => "INIT"
  | .functionalEvent => "FE"
  | .faultTree => "FT"
  | .gate => "G"
  | .basicEvent => "BE"
  | .sequence => "S"

/-- The place of a kind in the order of kinds. -/
def rank : Tag → Nat
  | .initiatingEvent => 0
  | .functionalEvent => 1
  | .faultTree => 2
  | .gate => 3
  | .basicEvent => 4
  | .sequence => 5

end Tag

/-- The name of an entity. -/
inductive Identifier where
  /-- The top gate of a fault tree. -/
  | top
  /-- A mark and a raw id as it is written, which may be any text. -/
  | tagged (tag : Tag) (suffix : String)
  deriving DecidableEq, Repr

namespace Identifier

/-- The kind of entity that is named. -/
def tag : Identifier → Tag
  | .top => .gate
  | .tagged t _ => t

/-- The raw id behind the mark. -/
def suffix? : Identifier → Option String
  | .top => none
  | .tagged _ s => some s

/-- The name is that of a top gate. -/
def isTop (id : Identifier) : Bool := id == .top

/-- The name as it is written. -/
def text : Identifier → String
  | .top => "TOP"
  | .tagged t s => t.mark ++ s

/-! ## Reading a name -/

/-- Why a text is not a name. -/
inductive ParseError where
  | unknownMark (text : String)
  | noSuffix (text : String)
  deriving DecidableEq, Repr

/-- The wording of a `ParseError`. -/
def ParseError.message : ParseError → String
  | .unknownMark s => "Unknown identifier prefix in '" ++ s ++ "'"
  | .noSuffix s => "Identifier '" ++ s ++ "' has no suffix"

/-- What follows `mark` in a text that begins with it. -/
def after? : List Char → List Char → Option (List Char)
  | [], s => some s
  | _ :: _, [] => none
  | m :: mark, c :: s => if m = c then after? mark s else none

/-- The kind whose mark begins a text, and what follows the mark. -/
def splitMark? (s : List Char) : Option (Tag × List Char) :=
  Tag.all.findSome? fun t => (after? t.mark.toList s).map (t, ·)

/-- Reads a name. -/
def parse (s : String) : Except ParseError Identifier :=
  if s = "TOP" then .ok .top
  else match splitMark? s.toList with
    | none => .error (.unknownMark s)
    | some (_, []) => .error (.noSuffix s)
    | some (t, suffix) => .ok (.tagged t (String.ofList suffix))

/-! ## Order -/

/-- The order of names: the top gate, then by kind, then by raw id. -/
def le : Identifier → Identifier → Bool
  | .top, _ => true
  | .tagged _ _, .top => false
  | .tagged t s, .tagged u r =>
    t.rank < u.rank || (t.rank == u.rank && decide (s ≤ r))

/-- The names in order. -/
def sort (ids : List Identifier) : List Identifier := ids.mergeSort le

/-- The number of different names in a list. -/
def countDistinct (ids : List Identifier) : Nat := ids.eraseDups.length

/-- The first name of a list that stands in it before. -/
def firstRepeated? (seen : List Identifier) : List Identifier → Option Identifier
  | [] => none
  | id :: rest =>
    if seen.contains id then some id else firstRepeated? (id :: seen) rest

end Identifier
end RiskExchange
