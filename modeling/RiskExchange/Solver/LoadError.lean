import RiskExchange.Json.Error

/-! # Load errors — why a file gives no solution -/

namespace RiskExchange.Solver

/-- Why a file gives no solution. -/
inductive LoadError where
  | notFound (path : String)
  /-- The file cannot be opened; the cause in the system's words. -/
  | unreadable (cause : String)
  /-- The file does not hold the records of a solution. -/
  | undecodable (e : Json.Error)
  deriving DecidableEq, Repr

/-- The wording of a `LoadError`. -/
def LoadError.message : LoadError → String
  | .notFound path => "Input file not found: " ++ path
  | .unreadable cause => "Failed to read input: " ++ cause
  | .undecodable e => "Failed to decode solver records: " ++ e.message

/-- The wording of the cause that an error wraps. -/
def LoadError.cause? : LoadError → Option String
  | .notFound _ => none
  | .unreadable cause => some cause
  | .undecodable e => some e.message

end RiskExchange.Solver
