import RiskExchange.Json.Error

/-! # Store errors — why a sequence store cannot be used -/

namespace RiskExchange.Store

/-- Why a sequence store cannot be used. -/
inductive StoreError where
  /-- The file cannot be read or written; the cause in the system's words. -/
  | inaccessible (path cause : String)
  /-- The file is not JSON, or an entry has another shape than it should. -/
  | malformed (path : String) (e : Json.Error)
  /-- The file holds a JSON value that is no object. -/
  | notAnObject (path : String)
  deriving DecidableEq, Repr

/-- The wording of a `StoreError`. -/
def StoreError.message : StoreError → String
  | .inaccessible path cause =>
    "Failed to access sequence store " ++ path ++ ": " ++ cause
  | .malformed path e =>
    "Invalid sequence store " ++ path ++ ": " ++ e.message
  | .notAnObject path =>
    "Invalid sequence store " ++ path ++ ": expected a JSON object"

/-- The wording of the cause that an error wraps. -/
def StoreError.cause? : StoreError → Option String
  | .inaccessible _ cause => some cause
  | .malformed _ e => some e.message
  | .notAnObject _ => none

end RiskExchange.Store
