import RiskExchange.Toml.Scalar
import RiskExchange.Toml.Table

/-! # Readable values — what a document means on its own

    A document that no settings are asked of still has to make sense: its
    integers have 64 bits with a sign, and a table that claims to be a date by
    its least key holds the text of one. Such a table is a date, and nothing
    else in it counts. -/

namespace RiskExchange.Toml

/-- An integer has 64 bits with a sign. -/
def isSigned (n : Int) : Bool :=
  -(Nat.pow 2 63 : Int) ≤ n && n < Nat.pow 2 63

/-- The key by which a table claims to be a date. -/
def dateKey : String := "$__toml_private_datetime"

/-- The value by which a table claims to be a date: that of the key for it, if
    no other key comes before. -/
def dateClaim? (members : Members) : Option Value :=
  if members.any (·.1 < dateKey) then none else lookup dateKey members

/-- The value is the text of a date or time. -/
def isDateText : Value → Bool
  | .string s => isDateTime s.toList
  | _ => false

mutual

/-- A value makes sense on its own. -/
def Value.isReadable : Value → Bool
  | .integer n => isSigned n
  | .array items => itemsReadable items
  | .table _ members =>
    match dateClaim? members with
    | some v => isDateText v
    | none => membersReadable members
  | .tables elements => tablesReadable elements
  | _ => true
  termination_by structural v => v

/-- Every value in a list makes sense. -/
def itemsReadable : List Value → Bool
  | [] => true
  | v :: rest => v.isReadable && itemsReadable rest
  termination_by structural items => items

/-- Every value of members makes sense. -/
def membersReadable : List (String × Value) → Bool
  | [] => true
  | m :: rest => memberReadable m && membersReadable rest
  termination_by structural members => members

/-- The value of a member makes sense. -/
def memberReadable : String × Value → Bool
  | (_, v) => v.isReadable
  termination_by structural m => m

/-- Every table of an array makes sense. -/
def tablesReadable : List (List (String × Value)) → Bool
  | [] => true
  | t :: rest =>
    (match dateClaim? t with
      | some v => isDateText v
      | none => membersReadable t) && tablesReadable rest
  termination_by structural elements => elements

end
end RiskExchange.Toml
