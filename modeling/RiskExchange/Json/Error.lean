import RiskExchange.Json.Fault
import RiskExchange.Text.Unsigned

/-! # Decoding errors — malformed text and mismatched shape

    Decoding a text into a record fails with the first problem from left to
    right: a fault of the text, or a value of the wrong shape. -/

namespace RiskExchange.Json

/-- Why a well-formed value does not decode. -/
inductive Mismatch where
  /-- A value of another kind than expected; both are described in words. -/
  | wrongKind (found expected : String)
  /-- A record written as an array that is too short. -/
  | tooShort (length : Nat) (record : String) (size : Nat)
  | missingField (name : String)
  | duplicateField (name : String)
  /-- None of the alternative shapes of a type fits. -/
  | noAlternative (type : String)
  /-- A text that should be an unsigned numeral. -/
  | badUnsigned (e : Text.UnsignedError)
  /-- A text that breaks a rule of the domain, in the domain's wording. -/
  | badText (message : String)
  deriving DecidableEq, Repr

/-- The wording of a mismatch. -/
def Mismatch.message : Mismatch → String
  | .wrongKind found expected =>
    "invalid type: " ++ found ++ ", expected " ++ expected
  | .tooShort length record size =>
    "invalid length " ++ toString length ++ ", expected struct " ++ record
      ++ " with " ++ toString size
      ++ (if size = 1 then " element" else " elements")
  | .missingField name => "missing field `" ++ name ++ "`"
  | .duplicateField name => "duplicate field `" ++ name ++ "`"
  | .noAlternative type =>
    "data did not match any variant of untagged enum " ++ type
  | .badUnsigned e => e.message
  | .badText message => message

/-- Why a text does not decode. -/
inductive Error where
  | fault (f : Fault)
  | mismatch (m : Mismatch)
  /-- The text could not be read at all; the cause in the system's words. -/
  | unreadable (cause : String)
  deriving DecidableEq, Repr

/-- The wording of an error. -/
def Error.message : Error → String
  | .fault f => f.message
  | .mismatch m => m.message
  | .unreadable cause => cause

/-- The four kinds of error. -/
inductive Category where
  | malformed
  | endOfText
  | data
  | system
  deriving DecidableEq, Repr

/-- The kind of an error. -/
def Error.category : Error → Category
  | .fault f => if f.isEnd then .endOfText else .malformed
  | .mismatch _ => .data
  | .unreadable _ => .system

end RiskExchange.Json
