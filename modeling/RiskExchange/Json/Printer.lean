import RiskExchange.Json.Value

/-! # Printing — a value without any space

    Strings escape the quote, the backslash and the control characters, and
    nothing else. Numbers are written as `Number.text` writes them. -/

namespace RiskExchange.Json

/-- A hexadecimal digit in lower case. -/
def hexDigit (n : Nat) : Char := Nat.digitChar n

/-- A character inside a string literal. -/
def escapedChar (c : Char) : List Char :=
  if c = '"' then ['\\', '"']
  else if c = '\\' then ['\\', '\\']
  else if c = '\x08' then ['\\', 'b']
  else if c = '\x0c' then ['\\', 'f']
  else if c = '\n' then ['\\', 'n']
  else if c = '\r' then ['\\', 'r']
  else if c = '\t' then ['\\', 't']
  else if c.toNat < 0x20 then
    ['\\', 'u', '0', '0', hexDigit (c.toNat / 16), hexDigit (c.toNat % 16)]
  else [c]

/-- A string literal. -/
def printString (s : String) : List Char :=
  '"' :: s.toList.flatMap escapedChar ++ ['"']

mutual

/-- The text of a value. -/
def Value.print : Value → List Char
  | .null => ['n', 'u', 'l', 'l']
  | .bool true => ['t', 'r', 'u', 'e']
  | .bool false => ['f', 'a', 'l', 's', 'e']
  | .number n => n.text.toList
  | .string s => printString s
  | .array items => '[' :: printItems items ++ [']']
  | .object members => '\x7b' :: printMembers members ++ ['\x7d']
  termination_by structural v => v

/-- The elements of an array, separated by commas. -/
def printItems : List Value → List Char
  | [] => []
  | v :: rest => v.print ++ printMoreItems rest
  termination_by structural items => items

/-- Further elements of an array, each after a comma. -/
def printMoreItems : List Value → List Char
  | [] => []
  | v :: rest => ',' :: v.print ++ printMoreItems rest
  termination_by structural items => items

/-- The members of an object, separated by commas. -/
def printMembers : List (String × Value) → List Char
  | [] => []
  | m :: rest => printMember m ++ printMoreMembers rest
  termination_by structural members => members

/-- Further members of an object, each after a comma. -/
def printMoreMembers : List (String × Value) → List Char
  | [] => []
  | m :: rest => ',' :: printMember m ++ printMoreMembers rest
  termination_by structural members => members

/-- One member: its name, a colon and its value. -/
def printMember : String × Value → List Char
  | (name, v) => printString name ++ ':' :: v.print
  termination_by structural m => m

end

/-- The text of an object with the given members. -/
def printObject (members : List (String × Value)) : String :=
  String.ofList (Value.object members).print

end RiskExchange.Json
