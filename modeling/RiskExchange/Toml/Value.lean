import RiskExchange.Number.Decimal
import RiskExchange.Number.Positional
import RiskExchange.Text.Quoted

/-! # TOML values — scalars, arrays and tables that remember their making

    Whether a table may still be extended depends on how it came to be, so a
    table carries its origin. Of a date or time it is enough to know that it is
    one. -/

namespace RiskExchange.Toml

open RiskExchange.Number (Numeral)

/-- How a table came to be. -/
inductive Origin where
  /-- By a header of its own. -/
  | header
  /-- On the way to the table of a header. -/
  | implied
  /-- On the way to a value with a dotted key. -/
  | dotted
  /-- Between braces. -/
  | inline
  deriving DecidableEq, Repr

/-- A TOML value. -/
inductive Value where
  | string (s : String)
  | integer (n : Int)
  | float (x : Numeral)
  | boolean (b : Bool)
  | dateTime
  | array (items : List Value)
  | table (origin : Origin) (members : List (String × Value))
  /-- An array of tables made by headers; each is a list of members. -/
  | tables (elements : List (List (String × Value)))

/-- The members of a table. -/
abbrev Members := List (String × Value)

/-- The text of a floating number: positional, or the name of a special one. -/
def floatText : Numeral → String
  | .finite x => match x.toBinary64 with
    | some y => y.positionalText
    | none => if x.negative then "-inf" else "inf"
  | .infinite negative => if negative then "-inf" else "inf"
  | .notANumber => "NaN"

/-- A value in words. -/
def Value.described : Value → String
  | .string s => "string " ++ Text.quoted s
  | .integer n => "integer `" ++ toString n ++ "`"
  | .float x => "floating point `" ++ floatText x ++ "`"
  | .boolean b => "boolean `" ++ (if b then "true" else "false") ++ "`"
  | .dateTime | .table _ _ => "map"
  | .array _ | .tables _ => "sequence"

mutual

/-- Every integer in a value passes a test. -/
def Value.allIntegers (ok : Int → Bool) : Value → Bool
  | .integer n => ok n
  | .array items => allIntegersIn ok items
  | .table _ members => allIntegersAt ok members
  | .tables elements => allIntegersOf ok elements
  | _ => true
  termination_by structural v => v

/-- Every integer in a list of values passes a test. -/
def allIntegersIn (ok : Int → Bool) : List Value → Bool
  | [] => true
  | v :: rest => v.allIntegers ok && allIntegersIn ok rest
  termination_by structural items => items

/-- Every integer in the values of members passes a test. -/
def allIntegersAt (ok : Int → Bool) : List (String × Value) → Bool
  | [] => true
  | m :: rest => allIntegersOfMember ok m && allIntegersAt ok rest
  termination_by structural members => members

/-- Every integer in the value of a member passes a test. -/
def allIntegersOfMember (ok : Int → Bool) : String × Value → Bool
  | (_, v) => v.allIntegers ok
  termination_by structural m => m

/-- Every integer in several tables passes a test. -/
def allIntegersOf (ok : Int → Bool) : List (List (String × Value)) → Bool
  | [] => true
  | t :: rest => allIntegersAt ok t && allIntegersOf ok rest
  termination_by structural elements => elements

end
end RiskExchange.Toml
