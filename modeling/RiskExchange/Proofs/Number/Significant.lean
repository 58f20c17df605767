import RiskExchange.Number.Scientific
import RiskExchange.Proofs.Number.Digits
import RiskExchange.Proofs.Number.Nearest

/-! # Significant digits — which digits a number is shown with

    A positive number is counted in units of its last digit and rounded; one
    digit more than asked for is carried into the next power of ten (`Shows`).
    What is shown is a function of the number and near to it, and the converse
    holds: a number near enough to digits is shown with them
    (`shows_of_near`). So seven digits that are read as a binary number are
    shown again: digits that the number was shown with (`Shows.again`), and any
    digits at all where the format is precise (`shows_of_seven`). -/

namespace RiskExchange.Number

/-! ## The power of ten -/

private theorem ten_pos : (0 : ℚ) < 10 := by norm_num

theorem ten_zpow_pos (e : Int) : (0 : ℚ) < 10 ^ e := zpow_pos ten_pos e

theorem ten_zpow_mono {e f : Int} (h : e ≤ f) : (10 : ℚ) ^ e ≤ 10 ^ f :=
  zpow_le_zpow_right₀ (by norm_num) h

theorem ten_zpow_strictMono {e f : Int} (h : e < f) : (10 : ℚ) ^ e < 10 ^ f :=
  zpow_lt_zpow_right₀ (by norm_num) h

private theorem pow_eq_units (places : Nat) (t : Int) :
    (10 : ℚ) ^ t = (10 ^ places : Nat) * 10 ^ (t - places) := by
  push_cast
  rw [← zpow_natCast, ← zpow_add₀ ten_pos.ne']
  congr 1
  omega

/-- The number of digits of a whole quotient tells the quotient. -/
private theorem digitCount_bounds {m n : Nat} (hn : 0 < n) (h : n ≤ m) :
    0 < digitCount (m / n) ∧
      (10 : ℚ) ^ ((digitCount (m / n) : Int) - 1) ≤ m / n ∧
      (m : ℚ) / n < 10 ^ (digitCount (m / n) : Int) := by
  have hn' : (0 : ℚ) < n := Nat.cast_pos.mpr hn
  have hne : m / n ≠ 0 := Nat.ne_of_gt (Nat.div_pos h hn)
  rw [digitCount_eq hne]
  have hlow := pow_length_le hne
  have hhigh := lt_pow_length (m / n)
  have hpos := length_decimalDigits_pos (m / n)
  generalize (decimalDigits (m / n)).length = c at hlow hhigh hpos ⊢
  refine ⟨hpos, ?_, ?_⟩
  · have hle : 10 ^ (c - 1) * n ≤ m :=
      (Nat.mul_le_mul_right n hlow).trans (Nat.div_mul_le_self m n)
    have hexp : (c : Int) - 1 = ((c - 1 : Nat) : Int) := by omega
    rw [hexp, zpow_natCast, le_div_iff₀ hn']
    exact_mod_cast hle
  · have hlt : m < 10 ^ c * n := (Nat.div_lt_iff_lt_mul hn).mp hhigh
    rw [zpow_natCast, div_lt_iff₀ hn']
    exact_mod_cast hlt

private theorem div_eq_pow_iff {num den c : Nat} (hd : 0 < den)
    (hc : 0 < c) :
    (num : ℚ) / den = 10 ^ (1 - (c : Int)) ↔ den = num * 10 ^ (c - 1) := by
  have hexp : 1 - (c : Int) = -((c - 1 : Nat) : Int) := by omega
  rw [hexp, zpow_neg, zpow_natCast, div_eq_iff (Nat.cast_pos.mpr hd).ne',
    eq_inv_mul_iff_mul_eq₀ (pow_pos ten_pos _).ne', mul_comm, eq_comm]
  exact_mod_cast Iff.rfl

/-- Below one, the digits of the reciprocal tell the quotient. -/
private theorem reciprocal_bounds {num den : Nat} (hn : 0 < num)
    (hd : 0 < den) (h : num ≤ den) :
    (10 : ℚ) ^ (-(digitCount (den / num) : Int)) < num / den ∧
      (num : ℚ) / den ≤ 10 ^ (1 - (digitCount (den / num) : Int)) := by
  obtain ⟨-, hlow, hhigh⟩ := digitCount_bounds hn h
  have hquot : (0 : ℚ) < den / num :=
    div_pos (Nat.cast_pos.mpr hd) (Nat.cast_pos.mpr hn)
  rw [← inv_div (den : ℚ) num]
  constructor
  · rw [zpow_neg]
    exact inv_strictAnti₀ hquot hhigh
  · rw [← neg_sub, zpow_neg]
    exact inv_anti₀ (ten_zpow_pos _) hlow

theorem decimalExponent_bounds {num den : Nat} (hn : 0 < num)
    (hd : 0 < den) :
    (10 : ℚ) ^ decimalExponent num den ≤ num / den ∧
      (num : ℚ) / den < 10 ^ (decimalExponent num den + 1) := by
  rw [decimalExponent]
  split
  next hle =>
    rw [sub_add_cancel]
    exact (digitCount_bounds hd hle).2
  next hlt =>
    have hle := Nat.le_of_not_le hlt
    obtain ⟨habove, hupto⟩ := reciprocal_bounds hn hd hle
    have hpow : (num : ℚ) / den = _ ↔ _ :=
      div_eq_pow_iff hd (digitCount_bounds hn hle).1
    dsimp only
    split
    next heq =>
      refine ⟨(hpow.mpr heq).ge, hupto.trans_lt ?_⟩
      exact ten_zpow_strictMono (Int.lt_succ _)
    next hne =>
      refine ⟨habove.le, ?_⟩
      rw [neg_add_eq_sub]
      exact lt_of_le_of_ne hupto (mt hpow.mp hne)

/-! ## The digits -/

/-- A positive number is shown with a coefficient of `places + 1` digits and
    the exponent of the first: it is counted in units of the last digit, and a
    count of one digit more is a power of ten. -/
inductive Shows (places : Nat) (q : ℚ) : Nat → Int → Prop where
  | plain {k : Nat} {t : Int} (hlow : (10 : ℚ) ^ t ≤ q)
      (hhigh : q < 10 ^ (t + 1)) (hk : k < 10 ^ (places + 1))
      (hnear : NearestEven (q / 10 ^ (t - places)) k) : Shows places q k t
  | carried {t : Int} (hlow : (10 : ℚ) ^ t ≤ q) (hhigh : q < 10 ^ (t + 1))
      (hnear : NearestEven (q / 10 ^ (t - places)) (10 ^ (places + 1))) :
      Shows places q (10 ^ places) (t + 1)

section

variable {places : Nat} {q : ℚ} {k : Nat} {t : Int}

private theorem count_le (hlow : (10 : ℚ) ^ t ≤ q)
    (hnear : NearestEven (q / 10 ^ (t - places)) k) : 10 ^ places ≤ k := by
  refine hnear.ge_of_ge ?_
  rw [le_div_iff₀ (ten_zpow_pos _), ← pow_eq_units]
  exact hlow

private theorem pow_succ_eq_units (places : Nat) (t : Int) :
    (10 : ℚ) ^ (t + 1) = (10 ^ (places + 1) : Nat) * 10 ^ (t - places) := by
  rw [pow_eq_units (places + 1) (t + 1)]
  congr 2
  omega

private theorem le_count (hhigh : q < 10 ^ (t + 1))
    (hnear : NearestEven (q / 10 ^ (t - places)) k) :
    k ≤ 10 ^ (places + 1) := by
  refine hnear.le_of_le ?_
  rw [div_le_iff₀ (ten_zpow_pos _), ← pow_succ_eq_units]
  exact hhigh.le

theorem shows_significant {x : Binary64} (hx : x.significand ≠ 0)
    (places : Nat) : Shows places x.magnitude (x.significant places).1
      (x.significant places).2 := by
  have hd := x.ratio_snd_pos
  have hmag := x.ratio_div
  have hn : 0 < x.ratio.1 := by
    refine Nat.pos_of_ne_zero fun h0 => ?_
    rw [h0, Nat.cast_zero, zero_div] at hmag
    exact hx (Binary64.magnitude_eq_zero_iff.mp hmag.symm)
  obtain ⟨hlow, hhigh⟩ := decimalExponent_bounds hn hd
  have hnear := nearestEven_scaled (by norm_num : 0 < 10) x.ratio.1 hd
    (decimalExponent x.ratio.1 x.ratio.2 - places)
  rw [Nat.cast_ofNat] at hnear
  rw [hmag] at hlow hhigh hnear
  rw [Binary64.significant, if_neg hx]
  dsimp only
  split
  next hcarry =>
    rw [hcarry] at hnear
    exact .carried hlow hhigh hnear
  next hplain =>
    exact .plain hlow hhigh
      (Nat.lt_of_le_of_ne (le_count hhigh hnear) hplain) hnear

namespace Shows

theorem bounds (h : Shows places q k t) :
    10 ^ places ≤ k ∧ k < 10 ^ (places + 1) := by
  cases h with
  | plain hlow hhigh hk hnear => exact ⟨count_le hlow hnear, hk⟩
  | carried =>
      exact ⟨le_rfl, Nat.pow_lt_pow_right (by decide) (Nat.lt_succ_self _)⟩

theorem pos (h : Shows places q k t) : 0 < q := by
  cases h with
  | plain hlow => exact (ten_zpow_pos _).trans_le hlow
  | carried hlow => exact (ten_zpow_pos _).trans_le hlow

theorem lt_pow (h : Shows places q k t) : q < 10 ^ (t + 1) := by
  cases h with
  | plain hlow hhigh => exact hhigh
  | carried hlow hhigh =>
      exact hhigh.trans (ten_zpow_strictMono (Int.lt_succ _))

theorem decade_le {t' : Int} (hlow : (10 : ℚ) ^ t ≤ q)
    (hhigh : q < 10 ^ (t' + 1)) : t ≤ t' :=
  Int.lt_add_one_iff.mp
    ((zpow_lt_zpow_iff_right₀ (by norm_num)).mp (hlow.trans_lt hhigh))

/-- A number is shown in one way. -/
theorem unique {k' : Nat} {t' : Int} (h : Shows places q k t)
    (h' : Shows places q k' t') : k = k' ∧ t = t' := by
  cases h with
  | @plain _ t hlow hhigh hk hnear =>
      cases h' with
      | plain hlow' hhigh' hk' hnear' =>
          obtain rfl := le_antisymm (decade_le hlow hhigh')
            (decade_le hlow' hhigh)
          exact ⟨hnear.unique hnear', rfl⟩
      | carried hlow' hhigh' hnear' =>
          obtain rfl := le_antisymm (decade_le hlow hhigh')
            (decade_le hlow' hhigh)
          exact absurd (hnear.unique hnear') (Nat.ne_of_lt hk)
  | carried hlow hhigh hnear =>
      cases h' with
      | plain hlow' hhigh' hk' hnear' =>
          obtain rfl := le_antisymm (decade_le hlow hhigh')
            (decade_le hlow' hhigh)
          exact absurd (hnear'.unique hnear) (Nat.ne_of_lt hk')
      | carried hlow' hhigh' hnear' =>
          obtain rfl := le_antisymm (decade_le hlow hhigh')
            (decade_le hlow' hhigh)
          exact ⟨rfl, rfl⟩

end Shows

/-- Half a unit of a digit more is less than half a unit. -/
private theorem half_unit_lt (e : Int) :
    (10 : ℚ) ^ (e - 1) / 2 < 10 ^ e / 2 := by
  refine div_lt_div_of_pos_right ?_ two_pos
  exact ten_zpow_strictMono (Int.sub_one_lt_iff.mpr le_rfl)

/-- A carried number is near to its digits, even in units of one digit
    more. -/
private theorem abs_sub_carried
    (hnear : NearestEven (q / 10 ^ (t - places)) (10 ^ (places + 1))) :
    |q - (10 ^ places : Nat) * 10 ^ (t + 1 - places)|
      ≤ 10 ^ (t + 1 - places - 1) / 2 := by
  have hle := ((nearestEven_div_iff (ten_zpow_pos _)).mp hnear).1
  rw [← pow_succ_eq_units, pow_eq_units places (t + 1)] at hle
  refine hle.trans_eq ?_
  congr 2
  omega

/-- A shown number is within half a unit of its digits. -/
theorem Shows.near (h : Shows places q k t) :
    |q - k * 10 ^ (t - places)| ≤ 10 ^ (t - places) / 2 := by
  cases h with
  | plain hlow hhigh hk hnear =>
      exact ((nearestEven_div_iff (ten_zpow_pos _)).mp hnear).1
  | carried hlow hhigh hnear =>
      exact (abs_sub_carried hnear).trans (half_unit_lt _).le

/-- Before a carry, the number is counted in the units of its own decade. -/
theorem Shows.exists_count (h : Shows places q k t) :
    ∃ (n : Nat) (s : Int), (10 : ℚ) ^ s ≤ q ∧ q < 10 ^ (s + 1) ∧
      10 ^ places ≤ n ∧ n ≤ 10 ^ (places + 1) ∧
      NearestEven (q / 10 ^ (s - places)) n ∧
      (k : ℚ) * 10 ^ (t - places) = n * 10 ^ (s - places) := by
  cases h with
  | plain hlow hhigh hk hnear =>
      exact ⟨k, t, hlow, hhigh, count_le hlow hnear, hk.le, hnear, rfl⟩
  | @carried s hlow hhigh hnear =>
      refine ⟨_, s, hlow, hhigh, count_le hlow hnear, le_rfl, hnear, ?_⟩
      rw [← pow_eq_units, ← pow_succ_eq_units]

/-- A number is shown with digits that it is nearest to. Below the power of
    ten of the first digit it must be nearer, since it is counted in smaller
    units there. -/
theorem shows_of_near (hk : 10 ^ places ≤ k) (hk' : k < 10 ^ (places + 1))
    (hnear : NearestEven (q / 10 ^ (t - places)) k)
    (hbelow : q < 10 ^ t → 10 ^ t - q ≤ 10 ^ (t - places - 1) / 2) :
    Shows places q k t := by
  by_cases hlow : (10 : ℚ) ^ t ≤ q
  · refine .plain hlow ?_ hk' hnear
    have hupto := (abs_le.mp hnear.near).2
    have hcast : (k : ℚ) + 1 ≤ (10 ^ (places + 1) : Nat) := by
      exact_mod_cast hk'
    rw [pow_succ_eq_units places, ← div_lt_iff₀ (ten_zpow_pos _)]
    linarith
  · rw [not_le] at hlow
    have hdist := hbelow hlow
    -- below the power of ten, the digits can only be those of the power
    have hpow : k = 10 ^ places := by
      refine Nat.le_antisymm (hnear.le_of_le ?_) hk
      rw [div_le_iff₀ (ten_zpow_pos _), ← pow_eq_units]
      exact hlow.le
    obtain ⟨t, rfl⟩ : ∃ s, t = s + 1 := ⟨t - 1, (sub_add_cancel t 1).symm⟩
    rw [hpow]
    have hunit : t + 1 - places - 1 = t - places := by omega
    rw [hunit] at hdist
    refine .carried ?_ hlow ((nearestEven_div_iff (ten_zpow_pos _)).mpr ?_)
    · have hsmall : (10 : ℚ) ^ (t - places) ≤ 10 ^ t :=
        ten_zpow_mono (by omega)
      rw [zpow_add_one₀ ten_pos.ne'] at hdist
      have := ten_zpow_pos t
      linarith
    · rw [← pow_succ_eq_units, abs_sub_comm,
        abs_of_nonneg (sub_nonneg.mpr hlow.le)]
      refine ⟨hdist, fun _ => ?_⟩
      exact (by decide : Even 10).pow_of_ne_zero (Nat.succ_ne_zero _)

/-- A number within half a unit of one digit more is shown with the digits. -/
theorem shows_of_close (hk : 10 ^ places ≤ k) (hk' : k < 10 ^ (places + 1))
    (hclose : |q - k * 10 ^ (t - places)| ≤ 10 ^ (t - places - 1) / 2) :
    Shows places q k t := by
  have hlt := hclose.trans_lt (half_unit_lt _)
  refine shows_of_near hk hk' ((nearestEven_div_iff (ten_zpow_pos _)).mpr
    ⟨hlt.le, fun htie => absurd htie hlt.ne⟩) ?_
  intro hlow
  have hle : (10 : ℚ) ^ t ≤ k * 10 ^ (t - places) := by
    rw [pow_eq_units places t]
    refine mul_le_mul_of_nonneg_right ?_ (ten_zpow_pos _).le
    exact_mod_cast hk
  have := (abs_le.mp hclose).1
  linarith

end

end RiskExchange.Number
