import RiskExchange.Model.BuildError
import RiskExchange.Number.Decimal
import RiskExchange.Number.Scientific
import RiskExchange.Text.Blank

/-! # Probabilities — one spelling for every decimal number

    A probability is written with one digit before the point and six after it,
    and a signed exponent of at least two digits. The solver's own zero has
    five places and is left as it is. -/

namespace RiskExchange.Model.Probability

open RiskExchange.Number (Binary64 Numeral)

/-- The solver's spelling of zero. -/
def zeroLiteral : String := "0.00000E+00"

/-- Probabilities have six places, a capital mark and two exponent digits. -/
def format : Binary64.ScientificFormat := ⟨6, 'E', 2⟩

/-- The finite number that a text holds between blanks. -/
def read? (s : String) : Option Binary64 :=
  Numeral.finite? (Text.trim s.toList)

/-- The spelling of a probability. -/
def normalize (s : String) : Except InvalidProbability String :=
  if s = zeroLiteral then .ok s
  else match read? s with
    | some x => .ok (x.scientific format)
    | none => .error ⟨s⟩

end RiskExchange.Model.Probability
