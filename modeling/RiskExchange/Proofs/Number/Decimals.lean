import RiskExchange.Number.Decimal
import RiskExchange.Proofs.Number.Digits
import RiskExchange.Proofs.Number.Nearest

/-! # Decimals — read as their exact value, rounded once

    A decimal whose exponent is far out of the range of the format is settled
    without writing it out, and that makes no difference
    (`toBinary64_eq_round`). So what is known of rounding is known of reading. -/

namespace RiskExchange.Number.Decimal

variable {x : Decimal} {y : Binary64}

/-- The magnitude of a decimal. -/
def magnitude (x : Decimal) : ℚ := x.coefficient * 10 ^ x.exponent

/-- The exact value of a decimal. -/
def value (x : Decimal) : ℚ :=
  if x.negative then -x.magnitude else x.magnitude

/-- The magnitude as a quotient of natural numbers. -/
def ratio (x : Decimal) : Nat × Nat :=
  scaled 10 x.coefficient 1 (-x.exponent)

theorem magnitude_nonneg (x : Decimal) : 0 ≤ x.magnitude := by
  rw [magnitude]
  positivity

theorem abs_value (x : Decimal) : |x.value| = x.magnitude := by
  rw [value]
  split
  · rw [abs_neg, abs_of_nonneg x.magnitude_nonneg]
  · rw [abs_of_nonneg x.magnitude_nonneg]

/-- Between decimals of one sign, the signs do not matter. -/
theorem abs_value_sub {x z : Decimal} (h : x.negative = z.negative) :
    |x.value - z.value| = |x.magnitude - z.magnitude| := by
  rw [value, value, h]
  split
  · rw [neg_sub_neg, abs_sub_comm]
  · rfl

theorem ratio_snd_pos (x : Decimal) : 0 < x.ratio.2 :=
  scaled_snd_pos (by norm_num) _ one_pos _

theorem ratio_div (x : Decimal) :
    (x.ratio.1 : ℚ) / x.ratio.2 = x.magnitude := by
  rw [ratio, scaled_neg_div 10 (by norm_num)]
  rfl

/-- The number of digits and the exponent tell the magnitude. -/
private theorem magnitude_bounds (hc : x.coefficient ≠ 0) :
    (10 : ℚ) ^ ((digitCount x.coefficient : Int) + x.exponent - 1)
        ≤ x.magnitude ∧
      x.magnitude < 10 ^ ((digitCount x.coefficient : Int) + x.exponent) := by
  have hten : (10 : ℚ) ≠ 0 := by norm_num
  have hpow : (0 : ℚ) < 10 ^ x.exponent := zpow_pos (by norm_num) _
  rw [digitCount_eq hc]
  have hpos := length_decimalDigits_pos x.coefficient
  have hle := pow_length_le hc
  have hlt := lt_pow_length x.coefficient
  generalize (decimalDigits x.coefficient).length = n at hpos hle hlt ⊢
  obtain ⟨n, rfl⟩ := Nat.exists_eq_add_one_of_ne_zero (Nat.ne_of_gt hpos)
  rw [Nat.add_sub_cancel] at hle
  constructor
  · have hexp : ((n + 1 : Nat) : Int) + x.exponent - 1
        = (n : Int) + x.exponent := by omega
    rw [hexp, zpow_add₀ hten, zpow_natCast]
    exact mul_le_mul_of_nonneg_right (by exact_mod_cast hle) hpow.le
  · rw [zpow_add₀ hten, zpow_natCast]
    exact mul_lt_mul_of_pos_right (by exact_mod_cast hlt) hpow

private theorem overflow_le_pow : Binary64.overflow ≤ 10 ^ 310 := by
  have hle : (2 : ℚ) ^ 1024 ≤ 10 ^ 310 + 2 ^ 970 := by
    exact_mod_cast (by decide +kernel : 2 ^ 1024 ≤ 10 ^ 310 + 2 ^ 970)
  rw [Binary64.overflow_eq_sub]
  exact sub_le_iff_le_add.mpr hle

/-- A decimal with 330 zeros behind the point is less than half the smallest
    positive number. -/
private theorem pow_lt_half_least :
    (10 : ℚ) ^ (-331 : Int) < 2 ^ Binary64.leastExponent / 2 := by
  have hlt : (2 : ℚ) ^ 1075 < 10 ^ 331 := by
    exact_mod_cast (by decide +kernel : 2 ^ 1075 < 10 ^ 331)
  rw [Binary64.half_leastExponent, zpow_neg, zpow_neg]
  refine inv_strictAnti₀ (zpow_pos two_pos _) ?_
  exact_mod_cast hlt

/-- Reading a decimal is rounding its exact value. -/
theorem toBinary64_eq_round (x : Decimal) :
    x.toBinary64 = Binary64.round x.negative x.ratio.1 x.ratio.2 := by
  have hd := x.ratio_snd_pos
  rw [toBinary64]
  split
  next hc =>
    rw [Binary64.round_eq_zero hd]
    rw [ratio_div, magnitude, hc, Nat.cast_zero, zero_mul]
    positivity
  next hc =>
    obtain ⟨hlow, hhigh⟩ := magnitude_bounds hc
    dsimp only
    split
    next htop =>
      rw [Binary64.round_eq_none_of_overflow_le hd]
      rw [ratio_div]
      have hpow : (10 : ℚ) ^ ((310 : Nat) : Int) ≤ x.magnitude :=
        le_trans (zpow_le_zpow_right₀ (by norm_num) (by omega)) hlow
      rw [zpow_natCast] at hpow
      exact overflow_le_pow.trans hpow
    next htop =>
      split
      next hbottom =>
        rw [Binary64.round_eq_zero hd]
        rw [ratio_div]
        have hpow : x.magnitude < 10 ^ (-331 : Int) :=
          lt_of_lt_of_le hhigh (zpow_le_zpow_right₀ (by norm_num) (by omega))
        exact (hpow.trans pow_lt_half_least).le
      next => rfl

/-- A decimal is out of range exactly from half a place beyond the largest
    binary number on. -/
theorem toBinary64_eq_none_iff :
    x.toBinary64 = none ↔ Binary64.overflow ≤ x.magnitude := by
  rw [toBinary64_eq_round, Binary64.round_eq_none_iff x.ratio_snd_pos,
    ratio_div]

theorem exists_toBinary64 (h : x.magnitude < Binary64.overflow) :
    ∃ y, x.toBinary64 = some y := by
  cases hy : x.toBinary64 with
  | none => exact absurd (toBinary64_eq_none_iff.mp hy) (not_le.mpr h)
  | some y => exact ⟨y, rfl⟩

theorem inFormat_of_toBinary64 (h : x.toBinary64 = some y) :
    y.InFormat ∧ y.negative = x.negative := by
  rw [toBinary64_eq_round] at h
  exact Binary64.inFormat_of_round x.ratio_snd_pos h

/-- No binary number is nearer to a decimal than the one it is read as. -/
theorem abs_sub_toBinary64_le (h : x.toBinary64 = some y) {z : Binary64}
    (hz : z.InFormat) :
    |x.magnitude - y.magnitude| ≤ |x.magnitude - z.magnitude| := by
  rw [toBinary64_eq_round] at h
  rw [← ratio_div]
  exact Binary64.abs_sub_round_le x.ratio_snd_pos h hz

theorem abs_sub_toBinary64_le_half (h : x.toBinary64 = some y) :
    |x.magnitude - y.magnitude|
      ≤ max (x.magnitude * 2 ^ (-53 : Int))
        (2 ^ Binary64.leastExponent / 2) := by
  rw [toBinary64_eq_round] at h
  rw [← ratio_div]
  exact Binary64.abs_sub_round_le_half x.ratio_snd_pos h

end RiskExchange.Number.Decimal
