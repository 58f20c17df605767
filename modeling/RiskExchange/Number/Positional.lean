import RiskExchange.Number.Shortest

/-! # Positional notation — digits around a point, without an exponent -/

namespace RiskExchange.Number

/-- Digits with a point after the given number of them, zeros filled in; an
    integer keeps `.0`. -/
def positional (digits : List Char) (point : Int) : List Char :=
  if point ≤ 0 then
    '0' :: '.' :: List.replicate (-point).toNat '0' ++ digits
  else
    let p := point.toNat
    if digits.length ≤ p then
      digits ++ List.replicate (p - digits.length) '0' ++ ['.', '0']
    else digits.take p ++ '.' :: digits.drop p

namespace Binary64

/-- The digits of the shortest decimal of a positive number, and how many of
    them stand before the point. -/
def shortestDigits (x : Binary64) : List Char × Int :=
  let (k, e) := x.shortest
  let digits := Nat.toDigits 10 k
  (digits, digits.length + e)

/-- The minus of a negative number, zero included. -/
def signText (x : Binary64) : List Char := if x.negative then ['-'] else []

/-- The shortest decimal in positional notation. -/
def positionalText (x : Binary64) : String :=
  let body :=
    if x.isZero then ['0', '.', '0']
    else let (digits, point) := x.shortestDigits; positional digits point
  String.ofList (x.signText ++ body)

end Binary64
end RiskExchange.Number
