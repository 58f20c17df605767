import RiskExchange.CutSet.TermCode

/-! # Sequence logic — the coded cut sets of an event tree

    One list of term codes for each sequence of the event tree, in order, under
    a key made of the tree's name and its sequence count. This is what the
    sequence store keeps. -/

namespace RiskExchange.CutSet

/-- The codes of the terms of one sequence, in order. -/
def encodeTerms (terms : List Nat) : List TermCode := terms.map .ofTerm

/-- The coded cut sets of the sequences of one event tree. -/
structure SequenceLogic where
  key : String
  sequences : List (List TermCode)
  deriving DecidableEq, Repr

namespace SequenceLogic

/-- The logic of the event tree of a name and a sequence count as written. -/
def ofTree (name count : String) (sequences : List (List TermCode)) :
    SequenceLogic where
  key := name ++ "-" ++ count
  sequences := sequences

/-- The sequences as a JSON array of arrays of strings. -/
def toJson (l : SequenceLogic) : Json.Value :=
  .array (l.sequences.map fun codes => .array (codes.map TermCode.toJson))

end SequenceLogic
end RiskExchange.CutSet
