import RiskExchange.Number.Binary64
import RiskExchange.Text.Unsigned

/-! # Decimal numerals — exact values and their nearest binary numbers

    A floating numeral is an optional sign, digits with an optional point and
    an optional exponent, or the name of an infinity or of not-a-number in any
    letter case. Its exact value is a `Decimal`, rounded once to `Binary64`. -/

namespace RiskExchange.Number

open RiskExchange.Text (digit?)

/-- The exact number `± coefficient * 10 ^ exponent`. -/
structure Decimal where
  negative : Bool
  coefficient : Nat
  exponent : Int
  deriving DecidableEq, Repr

/-- The nearest binary number, `none` beyond the largest finite one. Exponents
    far outside the format's range are settled without writing them out. -/
def Decimal.toBinary64 (x : Decimal) : Option Binary64 :=
  if x.coefficient = 0 then some (.zero x.negative)
  else
    let top := (digitCount x.coefficient : Int) + x.exponent
    if 310 < top then none
    else if top < -330 then some (.zero x.negative)
    else
      let (num, den) := scaled 10 x.coefficient 1 (-x.exponent)
      Binary64.round x.negative num den

/-- What a floating numeral denotes. -/
inductive Numeral where
  | finite (value : Decimal)
  | infinite (negative : Bool)
  | notANumber
  deriving DecidableEq, Repr

namespace Numeral

/-- The value of a list of digits on top of a value. -/
def digitsValue (value : Nat) (digits : List Nat) : Nat :=
  digits.foldl (fun v d => v * 10 + d) value

/-- The digits at the front of a text, and the rest. -/
def takeDigits : List Char → List Nat × List Char
  | [] => ([], [])
  | c :: rest =>
    match digit? c with
    | some d => let (ds, after) := takeDigits rest; (d :: ds, after)
    | none => ([], c :: rest)

/-- A sign at the front of a text, and the rest; `true` for minus. -/
def takeSign : List Char → Bool × List Char
  | '-' :: rest => (true, rest)
  | '+' :: rest => (false, rest)
  | s => (false, s)

/-- The exponent part up to the end of the text: nothing, or a mark, a sign
    and digits. -/
def readExponent : List Char → Option Int
  | [] => some 0
  | c :: rest =>
    if c = 'e' ∨ c = 'E' then
      let (negative, rest) := takeSign rest
      let (digits, after) := takeDigits rest
      if digits.isEmpty || !after.isEmpty then none
      else
        let value : Int := digitsValue 0 digits
        some (if negative then -value else value)
    else none

/-- The fraction part, if a point stands at the front, and the rest. -/
def takeFraction : List Char → List Nat × List Char
  | '.' :: rest => takeDigits rest
  | s => ([], s)

/-- Reads an unsigned numeral: digits around an optional point, at least one
    of them, and an optional exponent. -/
def readUnsigned (negative : Bool) (s : List Char) : Option Decimal :=
  let (whole, rest) := takeDigits s
  let (fraction, rest) := takeFraction rest
  if whole.isEmpty && fraction.isEmpty then none
  else (readExponent rest).map fun e =>
    ⟨negative, digitsValue 0 (whole ++ fraction), e - fraction.length⟩

/-- Reads a floating numeral; the whole text must be one. -/
def read? (s : List Char) : Option Numeral :=
  let (negative, rest) := takeSign s
  let name := String.ofList (rest.map Char.toLower)
  if name = "inf" ∨ name = "infinity" then some (.infinite negative)
  else if name = "nan" then some .notANumber
  else (readUnsigned negative rest).map .finite

/-- The finite binary number nearest to what a text denotes, if the text is a
    numeral and the number is finite. -/
def finite? (s : List Char) : Option Binary64 :=
  match read? s with
  | some (.finite x) => x.toBinary64
  | _ => none

end Numeral
end RiskExchange.Number
