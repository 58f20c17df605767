import RiskExchange.Number.Binary64

/-! # Shortest decimals — the fewest digits that read back

    Of the decimals that round to a given binary number, `shortest` takes one
    with the fewest digits and, among those, the nearest. It walks the grids of
    1, 2, … digits and tests the two grid points next to the number in exact
    arithmetic; seventeen digits always suffice. -/

namespace RiskExchange.Number.Binary64

/-- The numbers that round to a positive `x`, as an interval around four times
    its significand, in units of a quarter of its last place. -/
structure Basin where
  lower : Nat
  upper : Nat
  closed : Bool

/-- The basin of a positive number. Below a power of two the spacing halves,
    so the lower end is nearer there. -/
def basin (x : Binary64) : Basin where
  lower := 4 * x.significand -
    (if x.significand = Nat.pow 2 52 ∧ x.exponent ≠ leastExponent then 1 else 2)
  upper := 4 * x.significand + 2
  closed := x.significand % 2 = 0

/-- The point `a / b`, in quarters of the last place, lies in the basin. -/
def Basin.contains (i : Basin) (a b : Nat) : Bool :=
  if i.closed then i.lower * b ≤ a && a ≤ i.upper * b
  else i.lower * b < a && a < i.upper * b

/-- The grid point next to `x` with the given exponent, of those two that lie
    in the basin: the nearer, and the even one of two equally near. -/
def gridPoint? (x : Binary64) (exponent : Int) : Option Nat :=
  let (num, den) := x.ratio
  let (n, d) := scaled 10 num den exponent
  let low := n / d
  -- the grid point `k` in quarters of the last place of `x`
  let quarters (k : Nat) : Nat × Nat :=
    let (a, b) := scaled 10 k 1 (-exponent)
    let (a, b) := scaled 2 a b x.exponent
    (4 * a, b)
  let hit (k : Nat) : Bool :=
    let (a, b) := quarters k
    0 < k && (x.basin).contains a b
  match hit low, hit (low + 1) with
  | true, true => some (roundHalfEven n d)
  | true, false => some low
  | false, true => some (low + 1)
  | false, false => none

/-- The first hit on the grids of `digits`, `digits + 1`, … digits, for a
    number whose leading digit has the exponent `top`. -/
def searchGrids (x : Binary64) (top : Int) : Nat → Nat → Nat × Int
  | _, 0 => (0, 0)
  | digits, tries + 1 =>
    let exponent := top + 1 - digits
    match x.gridPoint? exponent with
    | some k => (k, exponent)
    | none => searchGrids x top (digits + 1) tries

/-- Drops the zeros at the end of a coefficient. -/
def stripZeros : Nat → Nat → Int → Nat × Int
  | 0, k, e => (k, e)
  | fuel + 1, k, e =>
    if k ≠ 0 ∧ k % 10 = 0 then stripZeros fuel (k / 10) (e + 1) else (k, e)

/-- The shortest decimal `coefficient * 10 ^ exponent` of a positive number,
    without zeros at the end. -/
def shortest (x : Binary64) : Nat × Int :=
  let (num, den) := x.ratio
  let (k, e) := searchGrids x (decimalExponent num den) 1 17
  stripZeros 17 k e

end RiskExchange.Number.Binary64
