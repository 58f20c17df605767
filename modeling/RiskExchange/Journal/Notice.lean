import RiskExchange.Identifier

/-! # Notices — what a conversion reports while it works

    Each notice is an occurrence with its particulars; its level and its
    wording are functions of it. -/

namespace RiskExchange.Journal

/-- How much a notice matters. -/
inductive Level where
  | debug
  | info
  | warn
  deriving DecidableEq, Repr

/-- The place of a level; a greater one matters more. -/
def Level.rank : Level → Nat
  | .debug => 0
  | .info => 1
  | .warn => 2

/-- The name of a level. -/
def Level.text : Level → String
  | .debug => "DEBUG"
  | .info => "INFO"
  | .warn => "WARN"

/-- Something that happened. -/
inductive Notice where
  /-- A threshold gate declares another number of inputs than it has. -/
  | arityMismatch (gate : Identifier) (declared : String) (inputs : Nat)
  | builtFaultTree (tree : Identifier) (gates : Nat)
  /-- An event that a correction gate owns is left out. -/
  | skippedOwned (id correctionGate : String)
  /-- A logical constant is left out. -/
  | skippedConstant (id label : String)
  | builtModelData (events : Nat)
  | builtEventTree (name : String) (functionalEvents sequences : Nat)
  | assembled (name : String) (faultTrees events : Nat)
  | loadedRecords (path : String)
  /-- There is no store yet. -/
  | startedEmptyStore (path : String)
  | persisted (sequences : Nat) (key path : String)
  /-- The output could not be put in place. -/
  | rollingBack (store output : String)
  | wrote (path : String)
  /-- There are no settings of the user's own. -/
  | usingDefaults (path : String)
  deriving DecidableEq, Repr

namespace Notice

/-- How much a notice matters. -/
def level : Notice → Level
  | .arityMismatch .. | .rollingBack .. => .warn
  | .assembled .. | .persisted .. | .wrote .. => .info
  | _ => .debug

/-- The wording of a notice. -/
def message : Notice → String
  | .arityMismatch gate declared inputs =>
    "Gate " ++ gate.text ++ " declares " ++ declared ++ " but has "
      ++ toString inputs ++ " inputs"
  | .builtFaultTree tree gates =>
    "Built fault tree " ++ tree.text ++ " with " ++ toString gates ++ " gates"
  | .skippedOwned id correctionGate =>
    "Skipping event " ++ id ++ " owned by correction gate " ++ correctionGate
  | .skippedConstant id label =>
    "Skipping logical constant " ++ id ++ " (" ++ label ++ ")"
  | .builtModelData events => "Built " ++ toString events ++ " basic events"
  | .builtEventTree name functionalEvents sequences =>
    "Built event tree " ++ name ++ " with " ++ toString functionalEvents
      ++ " functional events and " ++ toString sequences ++ " sequences"
  | .assembled name faultTrees events =>
    "Assembled event tree " ++ name ++ " with " ++ toString faultTrees
      ++ " fault trees and " ++ toString events ++ " basic events"
  | .loadedRecords path => "Loaded solver records from " ++ path
  | .startedEmptyStore path =>
    "No sequence store at " ++ path ++ ", starting empty"
  | .persisted sequences key path =>
    "Persisted " ++ toString sequences ++ " sequences under '" ++ key
      ++ "' in " ++ path
  | .rollingBack store output =>
    "Rolling back sequence store " ++ store ++ " after failing to write "
      ++ output
  | .wrote path => "Wrote " ++ path
  | .usingDefaults path => "No config file at " ++ path ++ ", using defaults"

end Notice
end RiskExchange.Journal
