import RiskExchange.Text.Printable

/-! # Quoted text — a string shown in an error message

    Double quotes around the text; a backslash form for the quote, the
    backslash, tab, line feed, carriage return and NUL; the code point in
    braces for every other character that cannot be shown. -/

namespace RiskExchange.Text

/-- The lower-case hexadecimal numeral of a number. -/
def hexNumeral (n : Nat) : List Char := Nat.toDigits 16 n

/-- A character as a quotation shows it. -/
def quotedChar (c : Char) : List Char :=
  if c = '\x00' then ['\\', '0']
  else if c = '\t' then ['\\', 't']
  else if c = '\r' then ['\\', 'r']
  else if c = '\n' then ['\\', 'n']
  else if c = '\\' then ['\\', '\\']
  else if c = '"' then ['\\', '"']
  else if isPrintable c then [c]
  else ['\\', 'u', '\x7b'] ++ hexNumeral c.toNat ++ ['\x7d']

/-- The text between double quotes. -/
def quoted (s : String) : String :=
  String.ofList ('"' :: s.toList.flatMap quotedChar ++ ['"'])

end RiskExchange.Text
