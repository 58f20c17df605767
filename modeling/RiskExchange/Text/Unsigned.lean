/-! # Unsigned numerals — an optional plus and decimal digits, within a bound

    Gate thresholds, cut-set terms and payloads are written in decimal. The
    reader goes from left to right and stops at the first fault, so a numeral
    that is too large before a stray character is reported as too large. -/

namespace RiskExchange.Text

/-- Why a text is not an unsigned numeral within its bound. -/
inductive UnsignedError where
  | empty
  | invalidDigit
  | tooLarge
  deriving DecidableEq, Repr

/-- The wording of an `UnsignedError`. -/
def UnsignedError.message : UnsignedError → String
  | .empty => "cannot parse integer from empty string"
  | .invalidDigit => "invalid digit found in string"
  | .tooLarge => "number too large to fit in target type"

/-- The value of a decimal digit. -/
def digit? (c : Char) : Option Nat :=
  if '0' ≤ c ∧ c ≤ '9' then some (c.toNat - '0'.toNat) else none

/-- Reads decimal digits on top of the value read so far. -/
def readDigits (bound : Nat) : Nat → List Char → Except UnsignedError Nat
  | value, [] => .ok value
  | value, c :: rest =>
    match digit? c with
    | none => .error .invalidDigit
    | some d =>
      if value * 10 + d ≤ bound then readDigits bound (value * 10 + d) rest
      else .error .tooLarge

/-- Reads an unsigned numeral of value at most `bound`: an optional plus,
    then at least one digit. -/
def readUnsigned (bound : Nat) : List Char → Except UnsignedError Nat
  | [] => .error .empty
  | ['+'] => .error .invalidDigit
  | '+' :: rest => readDigits bound 0 rest
  | s => readDigits bound 0 s

/-- The largest value of a 32-bit word. -/
def maxWord32 : Nat := Nat.pow 2 32 - 1

/-- The largest value of a 64-bit word. -/
def maxWord64 : Nat := Nat.pow 2 64 - 1

end RiskExchange.Text
