import RiskExchange.Proofs.Number.Nearest

/-! # Nearness — numbers that are a few roundings apart

    One rounding changes a number by a small factor, unless the number is so
    small that the format gets coarse there (`near_of_round`). Factors multiply
    along a computation, so what is left to count is the roundings. -/

namespace RiskExchange.Number

/-- The factor by which one rounding changes a number at most. -/
def slack : ℚ := 1 + 2 ^ (-50 : Int)

theorem one_le_slack : 1 ≤ slack := by
  rw [slack]
  norm_num

theorem one_le_slack_pow (n : Nat) : 1 ≤ slack ^ n := one_le_pow₀ one_le_slack

theorem slack_pow_pos (n : Nat) : 0 < slack ^ n :=
  one_pos.trans_le (one_le_slack_pow n)

/-- The numbers are at most so many roundings apart. -/
structure Near (n : Nat) (p q : ℚ) : Prop where
  le : p ≤ slack ^ n * q
  ge : q ≤ slack ^ n * p

namespace Near

variable {m n : Nat} {p q r s : ℚ}

theorem refl (n : Nat) (hp : 0 ≤ p) : Near n p p :=
  have hle := le_mul_of_one_le_left hp (one_le_slack_pow n)
  ⟨hle, hle⟩

private theorem le_trans_aux (hpq : p ≤ slack ^ m * q)
    (hqr : q ≤ slack ^ n * r) : p ≤ slack ^ (m + n) * r := by
  rw [pow_add, mul_assoc]
  exact hpq.trans (mul_le_mul_of_nonneg_left hqr (slack_pow_pos m).le)

theorem trans (hpq : Near m p q) (hqr : Near n q r) : Near (m + n) p r := by
  refine ⟨le_trans_aux hpq.le hqr.le, ?_⟩
  rw [add_comm]
  exact le_trans_aux hqr.ge hpq.ge

theorem pos (h : Near n p q) (hq : 0 < q) : 0 < p :=
  pos_of_mul_pos_right (hq.trans_le h.ge) (slack_pow_pos n).le

theorem mul_right (h : Near n p q) (hr : 0 ≤ r) : Near n (p * r) (q * r) := by
  constructor
  · rw [← mul_assoc]
    exact mul_le_mul_of_nonneg_right h.le hr
  · rw [← mul_assoc]
    exact mul_le_mul_of_nonneg_right h.ge hr

theorem mul (h : Near m p q) (h' : Near n r s) (hp : 0 < p) (hq : 0 < q)
    (hr : 0 < r) (hs : 0 < s) : Near (m + n) (p * r) (q * s) := by
  constructor
  · calc p * r ≤ slack ^ m * q * (slack ^ n * s) :=
        mul_le_mul h.le h'.le hr.le (mul_pos (slack_pow_pos m) hq).le
      _ = slack ^ (m + n) * (q * s) := by ring
  · calc q * s ≤ slack ^ m * p * (slack ^ n * r) :=
        mul_le_mul h.ge h'.ge hs.le (mul_pos (slack_pow_pos m) hp).le
      _ = slack ^ (m + n) * (p * r) := by ring

theorem inv (h : Near n p q) (hp : 0 < p) (hq : 0 < q) :
    Near n p⁻¹ q⁻¹ := by
  constructor
  · rw [← div_eq_mul_inv, inv_eq_one_div, div_le_div_iff₀ hp hq, one_mul]
    exact h.ge
  · rw [← div_eq_mul_inv, inv_eq_one_div, div_le_div_iff₀ hq hp, one_mul]
    exact h.le

theorem div (h : Near m p q) (h' : Near n r s) (hp : 0 < p) (hq : 0 < q)
    (hr : 0 < r) (hs : 0 < s) : Near (m + n) (p / r) (q / s) := by
  rw [div_eq_mul_inv, div_eq_mul_inv]
  exact h.mul (h'.inv hr hs) hp hq (inv_pos.mpr hr) (inv_pos.mpr hs)

end Near

namespace Binary64

variable {num den : Nat} {negative : Bool} {x y z : Binary64}

/-- Where numbers are precise, rounding is one rounding. -/
theorem near_of_round (hd : 0 < den)
    (hq : (2 : ℚ) ^ (-1024 : Int) ≤ num / den)
    (h : round negative num den = some x) : Near 1 x.magnitude (num / den) := by
  have herror := abs_sub_round_le_half hd h
  generalize (num : ℚ) / den = q at hq herror
  have hpos : 0 < q := (zpow_pos two_pos _).trans_le hq
  have hhalf : (2 : ℚ) ^ leastExponent / 2
      = 2 ^ (-1024 : Int) * 2 ^ (-51 : Int) := by
    rw [half_leastExponent, ← zpow_add₀ two_ne_zero]
    rfl
  have hbound : |q - x.magnitude| ≤ q * 2 ^ (-51 : Int) := by
    refine herror.trans (max_le ?_ ?_)
    · exact mul_le_mul_of_nonneg_left (by norm_num) hpos.le
    · rw [hhalf]
      exact mul_le_mul_of_nonneg_right hq (by norm_num)
  obtain ⟨hlow, hhigh⟩ := abs_le.mp hbound
  norm_num at hlow hhigh
  constructor
  · rw [pow_one, slack]
    norm_num
    linarith
  · rw [pow_one, slack]
    norm_num
    linarith

theorem near_of_round_natural {n : Nat} (hn : n ≠ 0)
    (h : round negative n 1 = some x) : Near 1 x.magnitude n := by
  have hone : (1 : ℚ) ≤ n := by
    exact_mod_cast Nat.one_le_iff_ne_zero.mpr hn
  have hlow : (2 : ℚ) ^ (-1024 : Int) ≤ 1 :=
    zpow_le_one_of_nonpos₀ one_le_two (by decide)
  rw [← cast_div_one n] at hone ⊢
  exact near_of_round one_pos (hlow.trans hone) h

theorem near_of_div (hy : 0 < y.magnitude)
    (hq : (2 : ℚ) ^ (-1024 : Int) ≤ x.magnitude / y.magnitude)
    (h : x.div y = some z) : Near 1 z.magnitude (x.magnitude / y.magnitude) := by
  rw [← quotient_div] at hq ⊢
  exact near_of_round (divisor_pos hy x) hq h

/-! ## Products and quotients that are zero -/

theorem isZero_of_mul_iff (h : x.mul y = some z) :
    z.isZero = true ↔ x.magnitude * y.magnitude ≤ 2 ^ leastExponent / 2 := by
  rw [← product_div]
  exact isZero_of_round_iff (Nat.mul_pos x.ratio_snd_pos y.ratio_snd_pos) h

theorem isZero_of_div_iff (hy : 0 < y.magnitude) (h : x.div y = some z) :
    z.isZero = true ↔ x.magnitude / y.magnitude ≤ 2 ^ leastExponent / 2 := by
  rw [← quotient_div]
  exact isZero_of_round_iff (divisor_pos hy x) h

end Binary64

end RiskExchange.Number
