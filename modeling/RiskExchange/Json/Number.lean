import RiskExchange.Json.Token
import RiskExchange.Number.Positional
import RiskExchange.Text.Unsigned

/-! # Numbers — integers in 64 bits, and binary numbers beyond

    An integer literal that fits 64 bits is kept exactly. Any other numeral is
    read in a fixed way that is not correct rounding: as many digits as fit 64
    bits make a significand, the rest only move the exponent, and the
    significand is scaled once by a power of ten. -/

namespace RiskExchange.Json

open RiskExchange.Number (Binary64 positional)
open RiskExchange.Text (maxWord64)

/-- A number of a JSON value. -/
inductive Number where
  | natural (n : Nat)
  | negative (magnitude : Nat)
  | float (x : Binary64)
  deriving DecidableEq, Repr

namespace Number

/-- The number was read from an integer literal within 64 bits. -/
def isInteger : Number → Bool
  | .natural _ | .negative _ => true
  | .float _ => false

/-- Equal as numbers of one kind; the zeros of both signs are equal. -/
def same : Number → Number → Bool
  | .float x, .float y => x.same y
  | x, y => x == y

/-! ## Reading a literal -/

/-- Appends digits to a significand while it fits 64 bits, and counts those
    left over. -/
def absorb : Nat → List Nat → Nat × Nat
  | significand, [] => (significand, 0)
  | significand, d :: rest =>
    if significand * 10 + d ≤ maxWord64 then absorb (significand * 10 + d) rest
    else (significand, rest.length + 1)

/-- The binary number nearest to a power of ten, up to `10 ^ 308`. -/
def powerOfTen (e : Nat) : Binary64 :=
  (Binary64.round false (Nat.pow 10 e) 1).getD (.zero false)

/-- Divides by `10 ^ 308` the given number of times, or until zero. -/
def divideDown (x : Binary64) : Nat → Binary64
  | 0 => x
  | times + 1 =>
    if x.isZero then x
    else divideDown ((x.div (powerOfTen 308)).getD (.zero false)) times

/-- Scales by a power of ten: one multiplication upwards, one division
    downwards, after divisions by `10 ^ 308` if it is farther than that. -/
def scale (x : Binary64) : Int → Option Binary64
  | .ofNat e =>
    if e ≤ 308 then x.mul (powerOfTen e)
    else if x.isZero then some x
    else none
  | .negSucc n =>
    let x := divideDown x (n / 308)
    if x.isZero then some x else x.div (powerOfTen (n % 308 + 1))

/-- The value of a numeral with a sign; `none` if it is out of range. -/
def ofParts (negative : Bool) (significand : Nat) (exponent : Int) :
    Option Number := do
  let x ← Binary64.round false significand 1
  let x ← scale x exponent
  return .float (if negative then x.neg else x)

/-- The value of an integer literal whose digits all fit. -/
def ofInteger (negative : Bool) (magnitude : Nat) : Option Number :=
  if !negative then some (.natural magnitude)
  else if 0 < magnitude ∧ magnitude ≤ Nat.pow 2 63 then some (.negative magnitude)
  else ofParts true magnitude 0

/-- The largest exponent that is still written out. -/
def maxExponent : Nat := Nat.pow 2 31 - 1

/-- The value of a numeral with an exponent part. -/
def withExponent (negative : Bool) (significand : Nat) (shift : Int)
    (down : Bool) (digits : List Nat) : Option Number :=
  let e := digits.foldl (fun v d => v * 10 + d) 0
  if maxExponent < e then
    if significand ≠ 0 ∧ !down then none
    else some (.float (.zero negative))
  else ofParts negative significand (if down then shift - e else shift + e)

/-- The number that a literal denotes; `none` if it is out of range. -/
def ofLiteral (n : NumberLiteral) : Option Number :=
  let (significand, dropped) := absorb 0 n.whole
  match n.fraction, n.exponent with
  | none, none =>
    if dropped = 0 then ofInteger n.negative significand
    else ofParts n.negative significand dropped
  | fraction, exponent =>
    let places := fraction.getD []
    let (significand, unread) := absorb significand places
    let shift : Int := dropped - (places.length - unread : Nat)
    match exponent with
    | none => ofParts n.negative significand shift
    | some (down, digits) =>
      withExponent n.negative significand shift down digits

/-! ## Writing a number -/

/-- Where positional notation ends, and how the point is kept. -/
structure FloatFormat where
  /-- The least exponent of the first digit that is written positionally. -/
  least : Int
  /-- The first exponent that is not. -/
  limit : Int

/-- Numbers from `0.00001` up to below `10 ^ 16` are written positionally. -/
def format : FloatFormat := ⟨-5, 16⟩

/-- One digit, the others after a point, and a signed exponent. -/
def exponential (digits : List Char) (e : Int) : List Char :=
  digits.take 1
    ++ (if digits.length ≤ 1 then [] else '.' :: digits.drop 1)
    ++ 'e' :: (if e < 0 then '-' else '+') :: Nat.toDigits 10 e.natAbs

/-- The text of a binary number: its shortest digits. -/
def floatText (x : Binary64) : String :=
  let body :=
    if x.isZero then ['0', '.', '0']
    else
      let (digits, point) := x.shortestDigits
      if format.least ≤ point - 1 ∧ point - 1 < format.limit then
        positional digits point
      else exponential digits (point - 1)
  String.ofList (x.signText ++ body)

/-- The text of a number. -/
def text : Number → String
  | .natural n => String.ofList (Nat.toDigits 10 n)
  | .negative n => String.ofList ('-' :: Nat.toDigits 10 n)
  | .float x => floatText x

end Number
end RiskExchange.Json
