import RiskExchange.Number.Rounding

/-! # Binary64 — the finite numbers of the 64-bit binary format

    A value is a sign, a significand below `2 ^ 53` and an exponent, in the
    normal form that the format stores: the significand is at least `2 ^ 52`
    unless the exponent is the least one. Arithmetic is exact up to one final
    rounding, in natural numbers throughout. -/

namespace RiskExchange.Number

/-- A finite number `± significand * 2 ^ exponent`; zero keeps its sign. -/
structure Binary64 where
  negative : Bool
  significand : Nat
  exponent : Int
  deriving DecidableEq, Repr

namespace Binary64

/-- The exponent of the smallest positive number. -/
def leastExponent : Int := -1074

/-- The exponent of the largest finite number. -/
def greatestExponent : Int := 971

/-- Zero with a sign. -/
def zero (negative : Bool) : Binary64 := ⟨negative, 0, leastExponent⟩

/-- The value is zero, of either sign. -/
def isZero (x : Binary64) : Bool := x.significand == 0

/-- The largest `e` with `2 ^ e ≤ num / den`, for positive terms. -/
def binaryExponent (num den : Nat) : Int :=
  let e : Int := (num.log2 : Int) - (den.log2 : Int)
  let (n, d) := scaled 2 num den e
  if n < d then e - 1 else e

/-- The number nearest to `± num / den`, a half to the even significand;
    `none` where that is beyond the largest finite number. -/
def round (negative : Bool) (num den : Nat) : Option Binary64 :=
  if num = 0 then some (zero negative)
  else
    let e := max (binaryExponent num den - 52) leastExponent
    let (n, d) := scaled 2 num den e
    let m := roundHalfEven n d
    let (m, e) := if m = Nat.pow 2 53 then (Nat.pow 2 52, e + 1) else (m, e)
    if greatestExponent < e then none else some ⟨negative, m, e⟩

/-- The magnitude as a quotient of natural numbers. -/
def ratio (x : Binary64) : Nat × Nat := scaled 2 x.significand 1 (-x.exponent)

/-- The same magnitude with the opposite sign. -/
def neg (x : Binary64) : Binary64 := { x with negative := !x.negative }

/-- The rounded product; `none` if it overflows. -/
def mul (x y : Binary64) : Option Binary64 :=
  let (a, b) := x.ratio
  let (c, d) := y.ratio
  round (x.negative != y.negative) (a * c) (b * d)

/-- The rounded quotient by a non-zero number; `none` if it overflows. -/
def div (x y : Binary64) : Option Binary64 :=
  let (a, b) := x.ratio
  let (c, d) := y.ratio
  round (x.negative != y.negative) (a * d) (b * c)

/-- Two numbers of the same value; the zeros of both signs are equal. -/
def same (x y : Binary64) : Bool := x == y || (x.isZero && y.isZero)

end Binary64
end RiskExchange.Number
