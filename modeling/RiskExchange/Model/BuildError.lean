import RiskExchange.Identifier

/-! # Build errors — why records do not make a model

    Every cause names the entity at fault. -/

namespace RiskExchange.Model

/-- A text that is not a finite decimal number. -/
structure InvalidProbability where
  text : String
  deriving DecidableEq, Repr

/-- The wording of an `InvalidProbability`. -/
def InvalidProbability.message (e : InvalidProbability) : String :=
  "Invalid probability '" ++ e.text ++ "': expected a finite decimal number"

/-- Why records do not make a model. -/
inductive BuildError where
  /-- A gate is neither a disjunction, a conjunction nor a threshold. -/
  | malformedGateKind (text : String)
  | duplicateGate (tree gate : Identifier)
  | duplicateFaultTree (tree : Identifier)
  | probability (event : Identifier) (e : InvalidProbability)
  | duplicateEvent (event : Identifier)
  /-- Two functional events or two sequences have one name. -/
  | duplicateInEventTree (id : Identifier)
  deriving DecidableEq, Repr

/-- The wording of a `BuildError`. -/
def BuildError.message : BuildError → String
  | .malformedGateKind s =>
    "Malformed gate kind '" ++ s ++ "': expected 'or', 'and' or 'k/n'"
  | .duplicateGate tree gate =>
    "Duplicate gate " ++ gate.text ++ " in fault tree " ++ tree.text
  | .duplicateFaultTree tree => "Duplicate fault tree " ++ tree.text
  | .probability event e => "Basic event " ++ event.text ++ ": " ++ e.message
  | .duplicateEvent event => "Duplicate basic event " ++ event.text
  | .duplicateInEventTree id =>
    "Duplicate identifier " ++ id.text ++ " in event tree"

/-- The wording of the cause that an error wraps. -/
def BuildError.cause? : BuildError → Option String
  | .probability _ e => some e.message
  | _ => none

end RiskExchange.Model
