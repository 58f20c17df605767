import RiskExchange.Proofs.Number.Decimals
import RiskExchange.Proofs.Number.Significant

/-! # Seven digits — read as a binary number and shown again

    Seven digits are less precise than a binary number, down to numbers below
    `10 ^ -317`: until there the binary number that seven digits are read as is
    shown with the same digits (`shows_of_seven`). Below, binary numbers are
    further apart than seven digits are, and some digits are never shown; but
    those that a number has been shown with are read as the same number
    (`Shows.again`). Near the other end, the digits of a binary number are not
    out of range, even if they are above it (`Shows.lt_overflow`). -/

namespace RiskExchange.Number

open Binary64 (InFormat leastExponent overflow)

variable {k : Nat} {t : Int} {d : Decimal} {x y : Binary64}

/-! ## Near the greatest number -/

private theorem magnitude_lt_pow (h : x.Valid) :
    x.magnitude < 2 ^ 1024 := by
  have hsig : (x.significand : ℚ) < 2 ^ 53 := by exact_mod_cast h.significand
  have hexp : (2 : ℚ) ^ x.exponent ≤ 2 ^ 971 := by
    rw [← zpow_natCast]
    exact zpow_le_zpow_right₀ one_le_two h.exponent
  rw [show 1024 = 53 + 971 from rfl, pow_add]
  exact mul_lt_mul hsig hexp (zpow_pos two_pos _) (by positivity)

private theorem digits_lt_overflow (hk : k < 10 ^ 7) (ht : t ≤ 307) :
    (k : ℚ) * 10 ^ (t - 6) < overflow := by
  have hlt : (k : ℚ) < 10 ^ 7 := by exact_mod_cast hk
  have hpow : (10 : ℚ) ^ (t - 6) ≤ 10 ^ 301 := by
    rw [← zpow_natCast]
    exact ten_zpow_mono (by omega)
  refine lt_trans ?_ Binary64.ten_pow_lt_overflow
  rw [show 308 = 7 + 301 from rfl, pow_add]
  exact mul_lt_mul hlt hpow (ten_zpow_pos _) (by positivity)

/-- Digits that are out of range are half a unit above all numbers in
    range. -/
private theorem pow_le_of_overflow_le (hk : 10 ^ 6 ≤ k) (ht : 308 ≤ t)
    (h : overflow ≤ (k : ℚ) * 10 ^ (t - 6)) :
    2 ^ 1024 ≤ ((k : ℚ) - 1 / 2) * 10 ^ (t - 6) := by
  rcases ht.eq_or_lt with rfl | hgt
  · -- the last seven digits that are in range
    have hin : (1797693 : ℚ) * 10 ^ 302 < overflow := by
      rw [Binary64.overflow_eq_sub, lt_sub_iff_add_lt]
      exact_mod_cast (by decide +kernel :
        1797693 * 10 ^ 302 + 2 ^ 970 < 2 ^ 1024)
    have hunit : (10 : ℚ) ^ ((308 : Int) - 6) = 10 ^ 302 :=
      zpow_natCast 10 302
    rw [hunit] at h ⊢
    have hlt := lt_of_mul_lt_mul_right (hin.trans_le h) (by positivity)
    have hk' : 1797694 ≤ k := by exact_mod_cast hlt
    have hcast : (1797694 : ℚ) - 1 / 2 ≤ k - 1 / 2 :=
      sub_le_sub_right (by exact_mod_cast hk') _
    refine le_trans ?_ (mul_le_mul_of_nonneg_right hcast (by positivity))
    have hle : (2 : ℚ) * 2 ^ 1024 ≤ 3595387 * 10 ^ 302 := by
      exact_mod_cast (by decide +kernel : 2 * 2 ^ 1024 ≤ 3595387 * 10 ^ 302)
    rw [← le_div_iff₀' two_pos] at hle
    refine hle.trans_eq ?_
    rw [mul_div_right_comm]
    congr 1
    norm_num
  · have hpow : (10 : ℚ) ^ 303 ≤ 10 ^ (t - 6) := by
      rw [← zpow_natCast]
      exact ten_zpow_mono (by omega)
    have hcast : (2 : ℚ) * 10 ^ 5 ≤ k - 1 / 2 := by
      have : (10 : ℚ) ^ 6 ≤ k := by exact_mod_cast hk
      linarith
    have hle : (2 : ℚ) ^ 1024 ≤ 2 * 10 ^ 5 * 10 ^ 303 := by
      exact_mod_cast (by decide +kernel : 2 ^ 1024 ≤ 2 * 10 ^ 5 * 10 ^ 303)
    refine hle.trans (mul_le_mul hcast hpow (by positivity) ?_)
    exact le_trans (by positivity) hcast

/-- The digits that a binary number is shown with are not out of range. -/
theorem Shows.lt_overflow (hx : x.Valid) (h : Shows 6 x.magnitude k t) :
    (k : ℚ) * 10 ^ (t - 6) < overflow := by
  obtain ⟨hk, hk'⟩ := h.bounds
  rcases lt_or_ge 307 t with hlt | hle
  · by_contra hover
    have hfar := pow_le_of_overflow_le hk hlt (not_lt.mp hover)
    have hnear := (abs_le.mp h.near).1
    have hmag := (magnitude_lt_pow hx).trans_le hfar
    rw [sub_mul, one_div_mul_eq_div] at hmag
    linarith only [hnear, hmag]
  · exact digits_lt_overflow hk' hle

/-! ## Where the format is precise -/

/-- Half a binary place is less than half a unit of an eighth digit. -/
private theorem half_place_le (hk : k < 10 ^ 7) (t : Int) :
    (k : ℚ) * 10 ^ (t - 6) * 2 ^ (-53 : Int) ≤ 10 ^ (t - 6 - 1) / 2 := by
  have hlt : (k : ℚ) < 10 ^ 7 := by exact_mod_cast hk
  have hpos := ten_zpow_pos (t - 6 - 1)
  have hten : (10 : ℚ) ^ (t - 6) = 10 * 10 ^ (t - 6 - 1) := by
    rw [← zpow_one_add₀ (by norm_num)]
    congr 1
    omega
  calc (k : ℚ) * 10 ^ (t - 6) * 2 ^ (-53 : Int)
      ≤ 10 ^ 7 * (10 * 10 ^ (t - 6 - 1)) * 2 ^ (-53 : Int) := by
        rw [hten]
        gcongr
    _ = 10 ^ (t - 6 - 1) * (10 ^ 8 * 2 ^ (-53 : Int)) := by ring
    _ ≤ 10 ^ (t - 6 - 1) * (1 / 2) := by
        gcongr
        norm_num
    _ = 10 ^ (t - 6 - 1) / 2 := by ring

/-- The smallest positive number in terms of a power of ten. -/
private theorem least_bounds :
    (4048045 : ℚ) * 2 ^ leastExponent < 2000000 * 10 ^ (-323 : Int) ∧
      (1000000 : ℚ) * 10 ^ (-323 : Int) < 2024023 * 2 ^ leastExponent := by
  have htwo : (2 : ℚ) ^ leastExponent = (2 ^ 1074)⁻¹ := by
    rw [leastExponent, zpow_neg]
    norm_cast
  have hten : (10 : ℚ) ^ (-323 : Int) = (10 ^ 323)⁻¹ := by
    rw [zpow_neg]
    norm_cast
  rw [htwo, hten, ← div_eq_mul_inv, ← div_eq_mul_inv, ← div_eq_mul_inv,
    ← div_eq_mul_inv, div_lt_div_iff₀ (by positivity) (by positivity),
    div_lt_div_iff₀ (by positivity) (by positivity)]
  constructor
  · exact_mod_cast (by decide +kernel :
      4048045 * 10 ^ 323 < 2000000 * 2 ^ 1074)
  · exact_mod_cast (by decide +kernel :
      1000000 * 2 ^ 1074 < 2024023 * 10 ^ 323)

private theorem least_lt {e : Int} (he : -323 ≤ e) :
    (2 : ℚ) ^ leastExponent < 10 ^ e := by
  have hle : (10 : ℚ) ^ (-323 : Int) ≤ 10 ^ e := ten_zpow_mono he
  have hlow := least_bounds.1
  have hpos : (0 : ℚ) < 2 ^ leastExponent := zpow_pos two_pos _
  linarith

/-- The binary number next to `10 ^ -317` is above it, and nearer than the one
    below. -/
private theorem pow_le_of_least (hle : (10 : ℚ) ^ (-317 : Int) ≤ d.magnitude)
    (hy : d.toBinary64 = some y) : (10 : ℚ) ^ (-317 : Int) ≤ y.magnitude := by
  by_contra hlow
  rw [not_le] at hlow
  obtain ⟨hbelow, habove⟩ := least_bounds
  have hpow : (10 : ℚ) ^ (-317 : Int) = 1000000 * 10 ^ (-323 : Int) := by
    rw [show (-317 : Int) = 6 + -323 from rfl, zpow_add₀ (by norm_num)]
    norm_num
  have hpos : (0 : ℚ) < 2 ^ leastExponent := zpow_pos two_pos _
  obtain ⟨hin, -⟩ := Decimal.inFormat_of_toBinary64 hy
  obtain ⟨j, hj⟩ := Binary64.exists_multiple hin.least
  have hj' : j < 2024023 := by
    have hlt : (j : ℚ) * 2 ^ leastExponent < 2024023 * 2 ^ leastExponent := by
      linarith
    exact_mod_cast lt_of_mul_lt_mul_right hlt hpos.le
  have hjle : (j : ℚ) * 2 ^ leastExponent ≤ 2024022 * 2 ^ leastExponent := by
    refine mul_le_mul_of_nonneg_right ?_ hpos.le
    exact_mod_cast Nat.lt_succ_iff.mp hj'
  -- the number above is nearer, so the number below has not been read
  have habovein : (Binary64.mk false 2024023 leastExponent).InFormat :=
    ⟨⟨by decide, by decide⟩, le_rfl⟩
  have hnear := Decimal.abs_sub_toBinary64_le hy habovein
  have hz : (Binary64.mk false 2024023 leastExponent).magnitude
      = 2024023 * 2 ^ leastExponent := by
    rw [Binary64.magnitude]
    norm_cast
  rw [hz, abs_of_nonneg (by linarith)] at hnear
  refine absurd hnear (not_le.mpr ?_)
  rw [abs_lt]
  constructor <;> linarith

/-- The last decade where seven digits are shown again: a unit is little more
    than two binary places there. -/
private theorem shows_of_seven_least (hk : 10 ^ 6 ≤ k) (hk' : k < 10 ^ 7)
    (hd : d.magnitude = k * 10 ^ ((-317 : Int) - 6))
    (hy : d.toBinary64 = some y) : Shows 6 y.magnitude k (-317) := by
  have herror := Decimal.abs_sub_toBinary64_le_half hy
  rw [hd, abs_sub_comm] at herror
  have hunit : (10 : ℚ) ^ ((-317 : Int) - 6 - 1) < 10 ^ ((-317 : Int) - 6) :=
    ten_zpow_strictMono (by omega)
  have hhalf : |y.magnitude - k * 10 ^ ((-317 : Int) - 6)|
      < 10 ^ ((-317 : Int) - 6) / 2 := by
    refine herror.trans_lt (max_lt ?_ ?_)
    · exact (half_place_le hk' _).trans_lt
        (div_lt_div_of_pos_right hunit two_pos)
    · exact div_lt_div_of_pos_right (least_lt (by omega)) two_pos
  refine shows_of_near hk hk' ((nearestEven_div_iff (ten_zpow_pos _)).mpr
    ⟨hhalf.le, fun htie => absurd htie hhalf.ne⟩) ?_
  intro hlow
  refine absurd hlow (not_lt.mpr (pow_le_of_least ?_ hy))
  have hcast : (10 : ℚ) ^ (6 : Int) ≤ k := by exact_mod_cast hk
  rw [hd, show (-317 : Int) = 6 + (-317 - 6) from rfl,
    zpow_add₀ (by norm_num)]
  exact mul_le_mul_of_nonneg_right hcast (ten_zpow_pos _).le

/-- Seven digits of a number of at least `10 ^ -317` are read as a binary
    number that is shown with them. -/
theorem shows_of_seven (hk : 10 ^ 6 ≤ k) (hk' : k < 10 ^ 7) (ht : -317 ≤ t)
    (hd : d.magnitude = k * 10 ^ (t - 6)) (hy : d.toBinary64 = some y) :
    Shows 6 y.magnitude k t := by
  rcases ht.eq_or_lt with rfl | hgt
  · exact shows_of_seven_least hk hk' hd hy
  · have herror := Decimal.abs_sub_toBinary64_le_half hy
    rw [hd, abs_sub_comm] at herror
    have hleast := least_lt (by omega : -323 ≤ t - 6 - 1)
    exact shows_of_close hk hk' (herror.trans (max_le (half_place_le hk' t)
      (div_lt_div_of_pos_right hleast two_pos).le))

/-- At most seven digits, wherever the point is, are seven digits behind
    which nothing but zeros is left out. -/
theorem exists_seven (hk : 0 < k) (hk' : k < 10 ^ 7) (e : Int) :
    ∃ (m : Nat) (t : Int), 10 ^ 6 ≤ m ∧ m < 10 ^ 7 ∧
      (k : ℚ) * 10 ^ e = m * 10 ^ (t - 6) := by
  have hlow := pow_length_le (Nat.ne_of_gt hk)
  have hhigh := lt_pow_length k
  have hpos := length_decimalDigits_pos k
  have hle := length_decimalDigits_le (by decide) hk'
  generalize (decimalDigits k).length = n at hlow hhigh hpos hle
  refine ⟨k * 10 ^ (7 - n), e + n - 1, ?_, ?_, ?_⟩
  · have hsplit : 10 ^ (n - 1) * 10 ^ (7 - n) = 10 ^ 6 := by
      rw [← Nat.pow_add]
      congr 1
      omega
    rw [← hsplit]
    exact Nat.mul_le_mul_right _ hlow
  · have hsplit : 10 ^ n * 10 ^ (7 - n) = 10 ^ 7 := by
      rw [← Nat.pow_add]
      congr 1
      omega
    rw [← hsplit]
    exact Nat.mul_lt_mul_of_pos_right hhigh (Nat.pow_pos (by decide))
  · push_cast
    rw [mul_assoc, ← zpow_natCast, ← zpow_add₀ (by norm_num)]
    congr 2
    omega

/-- A normal number is read with the full precision of the format. -/
theorem abs_sub_toBinary64_le_of_normal
    (h : (10 : ℚ) ^ (-307 : Int) ≤ d.magnitude) (hy : d.toBinary64 = some y) :
    |d.magnitude - y.magnitude| ≤ d.magnitude * 2 ^ (-53 : Int) := by
  refine (Decimal.abs_sub_toBinary64_le_half hy).trans (max_le le_rfl ?_)
  have hpow : (2 : ℚ) ^ (-1022 : Int) ≤ 10 ^ (-307 : Int) := by
    have hle : (10 : ℚ) ^ 307 ≤ 2 ^ 1022 := by
      exact_mod_cast (by decide +kernel : 10 ^ 307 ≤ 2 ^ 1022)
    rw [zpow_neg, zpow_neg]
    refine inv_anti₀ (ten_zpow_pos _) ?_
    exact_mod_cast hle
  have hhalf : (2 : ℚ) ^ leastExponent / 2
      = 2 ^ (-1022 : Int) * 2 ^ (-53 : Int) := by
    rw [Binary64.half_leastExponent, ← zpow_add₀ two_ne_zero]
    rfl
  rw [hhalf]
  exact mul_le_mul_of_nonneg_right (hpow.trans h) (zpow_nonneg two_pos.le _)

/-! ## Where it is not -/

/-- Binary numbers that are less than the smallest positive number apart are
    equal. -/
private theorem magnitude_eq_of_abs_sub_lt (hx : x.InFormat)
    (hy : y.InFormat) (h : |x.magnitude - y.magnitude| < 2 ^ leastExponent) :
    x.magnitude = y.magnitude := by
  have hpos : (0 : ℚ) < 2 ^ leastExponent := zpow_pos two_pos _
  obtain ⟨i, hi⟩ := Binary64.exists_multiple hx.least
  obtain ⟨j, hj⟩ := Binary64.exists_multiple hy.least
  rw [hi, hj, ← sub_mul, abs_mul, abs_of_pos hpos,
    mul_lt_iff_lt_one_left hpos] at h
  have hint : |(i : Int) - j| < 1 := by exact_mod_cast h
  have heq : i = j := by
    rw [Int.abs_lt_one_iff] at hint
    omega
  rw [hi, hj, heq]

/-- The digits that a binary number is shown with are read as a number that is
    shown with them. -/
theorem Shows.again (hx : x.InFormat) (h : Shows 6 x.magnitude k t)
    (hd : d.magnitude = k * 10 ^ (t - 6)) (hy : d.toBinary64 = some y) :
    Shows 6 y.magnitude k t := by
  obtain ⟨hk, hk'⟩ := h.bounds
  rcases lt_or_ge t (-317) with hlt | hge
  · -- among so small numbers, no other one is as near to the digits
    obtain ⟨hin, -⟩ := Decimal.inFormat_of_toBinary64 hy
    have hnear := Decimal.abs_sub_toBinary64_le hy hx
    have hshown := h.near
    have hunit : (10 : ℚ) ^ (t - 6) ≤ 10 ^ (-324 : Int) :=
      ten_zpow_mono (by omega)
    have hten : (10 : ℚ) ^ (-323 : Int) = 10 * 10 ^ (-324 : Int) := by
      rw [← zpow_one_add₀ (by norm_num)]
      norm_num
    have habove := least_bounds.2
    have hpos : (0 : ℚ) < 2 ^ leastExponent := zpow_pos two_pos _
    have htri := abs_sub_le x.magnitude d.magnitude y.magnitude
    rw [abs_sub_comm d.magnitude x.magnitude] at hnear
    rw [Nat.cast_ofNat, ← hd] at hshown
    have heq := magnitude_eq_of_abs_sub_lt hx hin (by linarith)
    rw [← heq]
    exact h
  · exact shows_of_seven hk hk' hge hd hy

end RiskExchange.Number
