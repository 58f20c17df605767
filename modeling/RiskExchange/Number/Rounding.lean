/-! # Rounding a quotient — to the nearest integer, a half to the even one

    Every rounding in this library is a quotient of natural numbers rounded
    here: a decimal read as a binary number, a binary product, and the seven
    digits of a probability. -/

namespace RiskExchange.Number

/-- The integer nearest to `num / den`; a half goes to the even neighbour. -/
def roundHalfEven (num den : Nat) : Nat :=
  let quotient := num / den
  let twice := 2 * (num % den)
  if den < twice ∨ (twice = den ∧ quotient % 2 = 1) then quotient + 1
  else quotient

/-- Rounding moves to the quotient or to its successor. -/
theorem roundHalfEven_bounds (num den : Nat) :
    num / den ≤ roundHalfEven num den ∧
      roundHalfEven num den ≤ num / den + 1 := by
  unfold roundHalfEven
  dsimp only
  split <;> omega

/-- The two terms of `num / den ÷ base ^ e`. -/
def scaled (base num den : Nat) : Int → Nat × Nat
  | .ofNat e => (num, den * Nat.pow base e)
  | .negSucc e => (num * Nat.pow base (e + 1), den)

/-- The number of decimal digits of a number; none for zero. -/
def digitCount (n : Nat) : Nat := if n = 0 then 0 else (Nat.toDigits 10 n).length

/-- The largest `x` with `10 ^ x ≤ num / den`, for positive terms. -/
def decimalExponent (num den : Nat) : Int :=
  if den ≤ num then digitCount (num / den) - 1
  else
    let places := digitCount (den / num)
    if den = num * Nat.pow 10 (places - 1) then 1 - places else -places

end RiskExchange.Number
