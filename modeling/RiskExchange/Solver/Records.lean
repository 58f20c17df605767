import RiskExchange.Solver.RawId

/-! # Solver records — what a solver says about one event tree

    The records are decoded once and hold raw ids throughout; naming, checking
    and filtering come later, when a model is built from them. -/

namespace RiskExchange.Solver

/-- The event tree of a solution. -/
structure TreeRecord where
  name : String
  initiatingEvent : RawId
  deriving DecidableEq, Repr

/-- The event tree and how many sequences it has, as written. -/
structure Header where
  tree : TreeRecord
  sequenceCount : RawId
  deriving DecidableEq, Repr

/-- An event with its label and its probability as written. Events that a
    correction gate owns are the solver's own. -/
structure EventRecord where
  id : RawId
  correctionGate : RawId
  label : String
  probability : RawId
  deriving DecidableEq, Repr

/-- A gate: `or`, `and` or a threshold, with inputs of three kinds. -/
structure GateRecord where
  id : RawId
  kind : String
  gates : List RawId
  events : List RawId
  complements : List RawId
  deriving DecidableEq, Repr

/-- A fault tree with its gates, the top gate first. -/
structure FaultTreeRecord where
  id : RawId
  gates : List GateRecord
  deriving DecidableEq, Repr

/-- A sequence with the terms of its cut sets. -/
structure SequenceRecord where
  id : RawId
  terms : List Nat
  deriving DecidableEq, Repr

/-- A functional event. -/
structure FunctionalEventRecord where
  id : RawId
  deriving DecidableEq, Repr

/-- A complete solution. -/
structure Solution where
  header : Header
  events : List EventRecord
  faultTrees : List FaultTreeRecord
  functionalEvents : List FunctionalEventRecord
  sequences : List SequenceRecord
  deriving DecidableEq, Repr

end RiskExchange.Solver
