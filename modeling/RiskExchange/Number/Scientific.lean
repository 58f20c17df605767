import RiskExchange.Number.Binary64

/-! # Scientific notation — a fixed number of digits after the point

    The exact value of a binary number, rounded once to the asked number of
    significant digits, a half to the even last digit. -/

namespace RiskExchange.Number.Binary64

/-- The coefficient of `places + 1` digits and the exponent of its first digit;
    zero has the exponent 0. -/
def significant (x : Binary64) (places : Nat) : Nat × Int :=
  if x.significand = 0 then (0, 0)
  else
    let (num, den) := x.ratio
    let top := decimalExponent num den
    let (n, d) := scaled 10 num den (top - places)
    let k := roundHalfEven n d
    if k = Nat.pow 10 (places + 1) then (Nat.pow 10 places, top + 1)
    else (k, top)

/-- The decimal digits of `n`, padded in front with zeros to `width`. -/
def paddedDigits (width n : Nat) : List Char :=
  let digits := Nat.toDigits 10 n
  List.replicate (width - digits.length) '0' ++ digits

/-- How scientific notation is spelled. -/
structure ScientificFormat where
  places : Nat
  mark : Char
  exponentDigits : Nat

/-- One digit, a point, the places, the mark, a signed and padded exponent; a
    minus in front for a negative number, zero included. -/
def scientific (format : ScientificFormat) (x : Binary64) : String :=
  let (k, e) := x.significant format.places
  let digits := paddedDigits (format.places + 1) k
  String.ofList <|
    (if x.negative then ['-'] else [])
      ++ digits.take 1 ++ '.' :: digits.drop 1
      ++ format.mark :: (if e < 0 then '-' else '+')
        :: paddedDigits format.exponentDigits e.natAbs

end RiskExchange.Number.Binary64
