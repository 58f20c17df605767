import RiskExchange.Text.Unsigned
import RiskExchange.Toml.StringReader
import RiskExchange.Toml.Value

/-! # Scalars — numbers, truth values, dates and times

    A scalar without quotes is a text up to the next separator, and the whole
    text has to have one of these forms. -/

namespace RiskExchange.Toml

open RiskExchange.Number (Decimal Numeral)
open RiskExchange.Text (digit?)

/-! ## Numbers -/

/-- The digits of a text in which single underscores may stand between digits;
    `after` says that a digit stands in front. -/
def groupedDigits (digit? : Char → Option Nat) :
    Bool → List Char → Option (List Nat)
  | after, [] => if after then some [] else none
  | after, c :: rest =>
    if c = '_' then
      if after then groupedDigits digit? false rest else none
    else do
      let d ← digit? c
      let ds ← groupedDigits digit? true rest
      return d :: ds

/-- The value of digits in a base. -/
def digitsValue (base : Nat) (digits : List Nat) : Nat :=
  digits.foldl (fun v d => v * base + d) 0

/-- A digit below a base. -/
def digitBelow? (base : Nat) (c : Char) : Option Nat :=
  (hexDigit? c).filter (· < base)

/-- The digits of a decimal number, without needless zeros in front. -/
def wholeDigits? (s : List Char) : Option (List Nat) := do
  let ds ← groupedDigits digit? false s
  if ds.length ≠ 1 ∧ ds.head? = some 0 then none else some ds

/-- A sign in front of a text, `true` for minus, and the rest. -/
def takeSign : List Char → Bool × List Char
  | '-' :: rest => (true, rest)
  | '+' :: rest => (false, rest)
  | s => (false, s)

/-- An integer: decimal with a sign, or in another base without one. -/
def integer? (s : List Char) : Option Int :=
  match s with
  | '0' :: 'x' :: rest => inBase 16 rest
  | '0' :: 'o' :: rest => inBase 8 rest
  | '0' :: 'b' :: rest => inBase 2 rest
  | s => do
    let (negative, rest) := takeSign s
    let n : Int := digitsValue 10 (← wholeDigits? rest)
    return if negative then -n else n
where
  /-- A number written in the digits of a base. -/
  inBase (base : Nat) (s : List Char) : Option Int := do
    return digitsValue base (← groupedDigits (digitBelow? base) false s)

/-- The character continues a group of digits. -/
def isGrouped (c : Char) : Bool := c == '_' || (digit? c).isSome

/-- The digits of a fraction, if a point stands in front, and the rest. -/
def fraction? : List Char → Option (List Nat × List Char)
  | '.' :: s => do
    let ds ← groupedDigits digit? false (s.takeWhile isGrouped)
    return (ds, s.dropWhile isGrouped)
  | s => some ([], s)

/-- The exponent of a number, up to the end of the text. -/
def exponent? : List Char → Option Int
  | [] => some 0
  | c :: s =>
    if c = 'e' ∨ c = 'E' then do
      let (negative, rest) := takeSign s
      let n : Int := digitsValue 10 (← groupedDigits digit? false rest)
      return if negative then -n else n
    else none

/-- A number with a fraction, an exponent or both. -/
def float? (s : List Char) : Option Numeral := do
  let (negative, body) := takeSign s
  if body = ['i', 'n', 'f'] then return .infinite negative
  if body = ['n', 'a', 'n'] then return .notANumber
  let whole ← wholeDigits? (body.takeWhile isGrouped)
  let rest := body.dropWhile isGrouped
  if rest = [] then none
  let (places, rest) ← fraction? rest
  let e ← exponent? rest
  let x : Decimal :=
    ⟨negative, digitsValue 10 (whole ++ places), e - places.length⟩
  if x.toBinary64.isNone then none
  return .finite x

/-! ## Dates and times -/

/-- A number of two digits within bounds in front of a text, and the rest. -/
def twoDigits? (least most : Nat) : List Char → Option (Nat × List Char)
  | a :: b :: rest => do
    let n := (← digit? a) * 10 + (← digit? b)
    if least ≤ n ∧ n ≤ most then some (n, rest) else none
  | _ => none

/-- What follows a character in front of a text. -/
def behind? (c : Char) : List Char → Option (List Char)
  | d :: rest => if d = c then some rest else none
  | [] => none

/-- The number of days of a month. -/
def daysIn (year month : Nat) : Nat :=
  if month = 2 then
    if year % 4 = 0 ∧ (year % 100 ≠ 0 ∨ year % 400 = 0) then 29 else 28
  else if month = 4 ∨ month = 6 ∨ month = 9 ∨ month = 11 then 30
  else 31

/-- What follows a date in front of a text. -/
def behindDate? (s : List Char) : Option (List Char) := do
  let (century, s) ← twoDigits? 0 99 s
  let (year, s) ← twoDigits? 0 99 s
  let (month, s) ← twoDigits? 1 12 (← behind? '-' s)
  let (_, s) ← twoDigits? 1 (daysIn (century * 100 + year) month)
    (← behind? '-' s)
  return s

/-- What follows the seconds and their fraction, if there are any. -/
def behindSeconds? (s : List Char) : Option (List Char) :=
  match behind? ':' s with
  | none => some s
  | some s => do
    let (_, s) ← twoDigits? 0 60 s
    match behind? '.' s with
    | none => return s
    | some s =>
      if (s.takeWhile fun c => (digit? c).isSome).isEmpty then none
      return s.dropWhile fun c => (digit? c).isSome

/-- What follows a time in front of a text. -/
def behindTime? (s : List Char) : Option (List Char) := do
  let (_, s) ← twoDigits? 0 23 s
  let (_, s) ← twoDigits? 0 59 (← behind? ':' s)
  behindSeconds? s

/-- The text is nothing, or an offset from universal time. -/
def isOffset : List Char → Bool
  | [] | ['Z'] | ['z'] => true
  | c :: s =>
    (c == '+' || c == '-') && Option.isSome do
      let (_, s) ← twoDigits? 0 23 s
      let (_, s) ← twoDigits? 0 59 (← behind? ':' s)
      if s = [] then some () else none

/-- The text is a date. -/
def isDate (s : List Char) : Bool := behindDate? s == some []

/-- The text is a date, a time, or both with an offset or without. -/
def isDateTime (s : List Char) : Bool :=
  match behindDate? s with
  | some [] => true
  | some (c :: rest) =>
    (c == 'T' || c == 't' || c == ' ') &&
      (behindTime? rest).any isOffset
  | none => behindTime? s == some []

/-! ## Any scalar -/

/-- The scalar that a text without quotes denotes. -/
def scalar? (s : List Char) : Option Value :=
  if s = ['t', 'r', 'u', 'e'] then some (.boolean true)
  else if s = ['f', 'a', 'l', 's', 'e'] then some (.boolean false)
  else match integer? s with
    | some n => some (.integer n)
    | none => match float? s with
      | some x => some (.float x)
      | none => if isDateTime s then some .dateTime else none

/-- The character belongs to a scalar without quotes. -/
def isScalarChar (c : Char) : Bool :=
  !(isSpace c || c == '\n' || c == '\r' || c == ',' || c == ']' || c == '['
    || c == '\x7b' || c == '\x7d' || c == '#' || c == '=' || c == '"'
    || c == '\'')

/-- The text of a scalar in front, and the rest. One blank may stand between a
    date and a time. -/
def takeScalar (s : List Char) : List Char × List Char :=
  let text := s.takeWhile isScalarChar
  match isDate text, s.dropWhile isScalarChar with
  | true, ' ' :: c :: rest =>
    if (digit? c).isSome then
      (text ++ ' ' :: (c :: rest).takeWhile isScalarChar,
        (c :: rest).dropWhile isScalarChar)
    else (text, ' ' :: c :: rest)
  | _, rest => (text, rest)

end RiskExchange.Toml
