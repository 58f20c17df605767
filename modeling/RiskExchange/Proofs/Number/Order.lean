import RiskExchange.Proofs.Number.Decimals
import RiskExchange.Proofs.Number.Significant

/-! # Order — a greater number is not rounded to a smaller one

    Every rounding counts a number in units that are a power of the base, and
    a greater number in units that are not smaller. In the same units the
    nearest count is monotone; between different units lies a power of the base
    that neither count passes (`mul_zpow_mono`). So the order is kept where a
    decimal is read as a binary number (`toBinary64_mono`) and where a binary
    number is shown with digits (`Shows.mono`). -/

namespace RiskExchange.Number

/-- The nearest counts of two numbers, in units of powers of a base, are in the
    order of the numbers. A count in the smaller units has at most `places`
    digits behind the first or is the next power, one in the greater units has
    as many. -/
theorem NearestEven.mul_zpow_mono {base p q : ℚ} {j k : Nat} {e f : Int}
    (places : Nat) (hbase : 1 < base) (hj : NearestEven (p / base ^ e) j)
    (hk : NearestEven (q / base ^ f) k) (hpq : p ≤ q) (hef : e ≤ f)
    (hhigh : (j : ℚ) ≤ base ^ (places + 1))
    (hlow : e < f → base ^ places ≤ (k : ℚ)) :
    (j : ℚ) * base ^ e ≤ k * base ^ f := by
  have hpos : 0 < base := one_pos.trans hbase
  rcases hef.eq_or_lt with rfl | hlt
  · have hunit : (0 : ℚ) < base ^ e := zpow_pos hpos e
    have hjk : j ≤ k := hj.mono hk (div_le_div_of_nonneg_right hpq hunit.le)
    exact mul_le_mul_of_nonneg_right (Nat.cast_le.mpr hjk) hunit.le
  · calc (j : ℚ) * base ^ e
        ≤ base ^ (places + 1) * base ^ e :=
          mul_le_mul_of_nonneg_right hhigh (zpow_pos hpos e).le
      _ = base ^ ((places : Int) + (e + 1)) := by
          rw [← zpow_natCast, ← zpow_add₀ hpos.ne']
          congr 1
          omega
      _ ≤ base ^ ((places : Int) + f) :=
          zpow_le_zpow_right₀ hbase.le (by omega)
      _ = base ^ places * base ^ f := by
          rw [zpow_add₀ hpos.ne', zpow_natCast]
      _ ≤ k * base ^ f :=
          mul_le_mul_of_nonneg_right (hlow hlt) (zpow_pos hpos f).le

/-! ## Rounding to a binary number -/

namespace Binary64

variable {num den num' den' : Nat} {negative negative' : Bool}
  {x y : Binary64}

private theorem binaryExponent_mono (hn : 0 < num) (hd : 0 < den)
    (hn' : 0 < num') (hd' : 0 < den') (h : (num : ℚ) / den ≤ num' / den') :
    binaryExponent num den ≤ binaryExponent num' den' := by
  have hlow := (binaryExponent_bounds hn hd).1
  have hhigh := (binaryExponent_bounds hn' hd').2
  have hlt := (zpow_lt_zpow_iff_right₀ one_lt_two).mp
    ((hlow.trans h).trans_lt hhigh)
  exact Int.lt_add_one_iff.mp hlt

/-- A greater quotient is not rounded to a smaller binary number. -/
theorem round_mono (hd : 0 < den) (hd' : 0 < den')
    (hx : round negative num den = some x)
    (hy : round negative' num' den' = some y)
    (h : (num : ℚ) / den ≤ num' / den') : x.magnitude ≤ y.magnitude := by
  obtain ⟨-, hmx, hzero⟩ := magnitude_of_round hd hx
  obtain ⟨-, hmy, -⟩ := magnitude_of_round hd' hy
  by_cases hn : num = 0
  · rw [hzero hn]
    exact y.magnitude_nonneg
  have hpos := Nat.pos_of_ne_zero hn
  have hpos' : 0 < num' := by
    refine Nat.pos_of_ne_zero ?_
    rintro rfl
    rw [Nat.cast_zero, zero_div] at h
    exact h.not_gt (div_pos (Nat.cast_pos.mpr hpos) (Nat.cast_pos.mpr hd))
  rw [hmx hn, hmy (Nat.ne_of_gt hpos')]
  have hexp : roundingExponent num den ≤ roundingExponent num' den' :=
    max_le_max_right _ (Int.sub_le_sub_right
      (binaryExponent_mono hpos hd hpos' hd' h) 52)
  refine NearestEven.mul_zpow_mono 52 one_lt_two
    (nearestEven_roundedAt num hd) (nearestEven_roundedAt num' hd') h hexp ?_ ?_
  · exact_mod_cast roundedAt_le hpos hd
  · intro hlt
    -- above the least exponent, the greater number has all of its bits
    have hbits := pow_le_of_roundingExponent hpos' hd'
      ((leastExponent_le_roundingExponent num den).trans_lt hlt)
    have hcount : 2 ^ 52 ≤ roundedAt num' den' := by
      refine (nearestEven_roundedAt num' hd').ge_of_ge ?_
      rw [le_div_iff₀ (zpow_pos two_pos _)]
      refine le_trans (le_of_eq ?_) hbits
      rw [zpow_add₀ two_ne_zero, mul_comm]
      norm_num
    exact_mod_cast hcount

end Binary64

/-- Decimals are read in their order, signs apart. -/
theorem Decimal.toBinary64_mono {d e : Decimal} {x y : Binary64}
    (hx : d.toBinary64 = some x) (hy : e.toBinary64 = some y)
    (h : d.magnitude ≤ e.magnitude) : x.magnitude ≤ y.magnitude := by
  rw [toBinary64_eq_round] at hx hy
  rw [← ratio_div, ← ratio_div] at h
  exact Binary64.round_mono d.ratio_snd_pos e.ratio_snd_pos hx hy h

/-! ## Showing digits -/

section

variable {places j k : Nat} {p q : ℚ} {s t : Int}

/-- Numbers are shown in their order. -/
theorem Shows.mono (hp : Shows places p j s) (hq : Shows places q k t)
    (h : p ≤ q) :
    (j : ℚ) * 10 ^ (s - places) ≤ k * 10 ^ (t - places) := by
  obtain ⟨m, e, hlow, -, -, hm, hpm, hj⟩ := hp.exists_count
  obtain ⟨n, f, -, hhigh, hn, -, hqn, hk⟩ := hq.exists_count
  have hdecade : e ≤ f := Shows.decade_le (hlow.trans h) hhigh
  rw [hj, hk]
  refine NearestEven.mul_zpow_mono places (by norm_num) hpm hqn h
    (Int.sub_le_sub_right hdecade _) ?_ ?_
  · exact_mod_cast hm
  · intro _
    exact_mod_cast hn

end

namespace Binary64

variable {x y : Binary64} {places : Nat}

/-- The magnitude that the significant digits of a number denote. -/
def shown (places : Nat) (x : Binary64) : ℚ :=
  (x.significant places).1 * 10 ^ ((x.significant places).2 - places)

theorem shown_nonneg (places : Nat) (x : Binary64) : 0 ≤ x.shown places :=
  mul_nonneg (Nat.cast_nonneg _) (ten_zpow_pos _).le

theorem shown_of_zero (h : x.significand = 0) : x.shown places = 0 := by
  simp [shown, significant, h]

/-- Binary numbers are shown in their order, signs apart. -/
theorem shown_mono (h : x.magnitude ≤ y.magnitude) :
    x.shown places ≤ y.shown places := by
  by_cases hx : x.significand = 0
  · rw [shown_of_zero hx]
    exact y.shown_nonneg places
  · have hy : y.significand ≠ 0 := by
      intro hy
      rw [magnitude_eq_zero_iff.mpr hy] at h
      exact hx (magnitude_eq_zero_iff.mp (h.antisymm x.magnitude_nonneg))
    exact (shows_significant hx places).mono (shows_significant hy places) h

end Binary64
end RiskExchange.Number
