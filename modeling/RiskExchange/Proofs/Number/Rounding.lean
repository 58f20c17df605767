import Mathlib.Algebra.Order.Field.Power
import Mathlib.Data.Rat.Cast.Order
import Mathlib.Tactic.Linarith
import Mathlib.Tactic.Positivity
import Mathlib.Tactic.Ring
import RiskExchange.Number.Binary64

/-! # Rounding — how far a rounded quotient is from the exact one

    Quotients of natural numbers are read as rationals. Rounding to an integer
    moves a quotient by a half at most (`roundHalfEven_le`), so rounding to a
    binary number moves it by half a place (`round_magnitude_le`), and a
    quotient is out of range only if it is half a place beyond the largest
    binary number (`overflow_le_of_round_eq_none`). -/

namespace RiskExchange.Number

/-! ## Scaling -/

theorem scaled_snd_pos {base den : Nat} (hb : 0 < base) (num : Nat)
    (hd : 0 < den) (e : Int) : 0 < (scaled base num den e).2 := by
  cases e with
  | ofNat e => exact Nat.mul_pos hd (Nat.pow_pos hb)
  | negSucc e => exact hd

/-- Scaling divides by a power of the base. -/
theorem scaled_div (base : Nat) (hb : 0 < base) (num den : Nat) (e : Int) :
    ((scaled base num den e).1 : ℚ) / ((scaled base num den e).2 : ℚ)
      = num / den / (base : ℚ) ^ e := by
  have hb' : (base : ℚ) ≠ 0 := Nat.cast_ne_zero.mpr (Nat.ne_of_gt hb)
  cases e with
  | ofNat e =>
      change (num : ℚ) / ((den * base ^ e : Nat) : ℚ) = _
      rw [Int.ofNat_eq_natCast, zpow_natCast, Nat.cast_mul, Nat.cast_pow,
        div_div]
  | negSucc e =>
      change ((num * base ^ (e + 1) : Nat) : ℚ) / (den : ℚ) = _
      rw [zpow_negSucc, Nat.cast_mul, Nat.cast_pow, div_inv_eq_mul,
        div_mul_eq_mul_div]

theorem cast_div_one (n : Nat) : (n : ℚ) / ((1 : Nat) : ℚ) = n := by
  rw [Nat.cast_one, div_one]

/-- Scaling by the opposite of an exponent multiplies. -/
theorem scaled_neg_div (base : Nat) (hb : 0 < base) (n : Nat) (e : Int) :
    ((scaled base n 1 (-e)).1 : ℚ) / ((scaled base n 1 (-e)).2 : ℚ)
      = n * (base : ℚ) ^ e := by
  rw [scaled_div base hb, cast_div_one, zpow_neg, div_inv_eq_mul]

/-! ## To the nearest integer -/

private theorem two_mul_roundHalfEven {den : Nat} (num : Nat) (hd : 0 < den) :
    2 * (den * roundHalfEven num den) ≤ 2 * num + den ∧
      2 * num ≤ 2 * (den * roundHalfEven num den) + den ∧
      (roundHalfEven num den ≠ 0 → den ≤ 2 * num) := by
  have hdiv := Nat.div_add_mod num den
  have hmod := Nat.mod_lt num hd
  unfold roundHalfEven
  dsimp only
  split
  · have hmul : den * (num / den + 1) = den * (num / den) + den :=
      Nat.mul_succ ..
    refine ⟨by omega, by omega, fun _ => by omega⟩
  · refine ⟨by omega, by omega, fun hne => ?_⟩
    have hpos : 1 ≤ num / den := Nat.pos_of_ne_zero hne
    have hle := Nat.mul_le_mul_left den hpos
    omega

section

variable {den : Nat} (num : Nat)

/-- Rounding moves a quotient up by a half at most. -/
theorem roundHalfEven_le (hd : 0 < den) :
    (roundHalfEven num den : ℚ) ≤ num / den + 1 / 2 := by
  have hd' : (0 : ℚ) < den := Nat.cast_pos.mpr hd
  have h : (2 : ℚ) * (den * roundHalfEven num den) ≤ 2 * num + den := by
    exact_mod_cast (two_mul_roundHalfEven num hd).1
  rw [div_add' _ _ _ hd'.ne', le_div_iff₀ hd']
  linarith

/-- Rounding moves a quotient down by a half at most. -/
theorem le_roundHalfEven (hd : 0 < den) :
    (num : ℚ) / den - 1 / 2 ≤ roundHalfEven num den := by
  have hd' : (0 : ℚ) < den := Nat.cast_pos.mpr hd
  have h : (2 : ℚ) * num ≤ 2 * (den * roundHalfEven num den) + den := by
    exact_mod_cast (two_mul_roundHalfEven num hd).2.1
  rw [div_sub' hd'.ne', div_le_iff₀ hd']
  linarith

/-- Rounding at most doubles a quotient. -/
theorem roundHalfEven_le_two_mul (hd : 0 < den) :
    (roundHalfEven num den : ℚ) ≤ 2 * (num / den) := by
  have hd' : (0 : ℚ) < den := Nat.cast_pos.mpr hd
  by_cases h0 : roundHalfEven num den = 0
  · rw [h0, Nat.cast_zero]
    positivity
  · -- a quotient that is not rounded to zero is a half at least
    have hle : (den : ℚ) ≤ 2 * num := by
      exact_mod_cast (two_mul_roundHalfEven num hd).2.2 h0
    have hhalf : (1 : ℚ) / 2 ≤ num / den := by
      rw [le_div_iff₀ hd']
      linarith
    have hround := roundHalfEven_le num hd
    linarith

end

namespace Binary64

variable {num den : Nat}

/-! ## The exponent of a quotient -/

private theorem log2_bounds {n : Nat} (hn : 0 < n) :
    (2 : ℚ) ^ (n.log2 : ℤ) ≤ n ∧ (n : ℚ) < 2 ^ ((n.log2 : ℤ) + 1) := by
  constructor
  · rw [zpow_natCast]
    exact_mod_cast Nat.log2_self_le (Nat.ne_of_gt hn)
  · rw [← Nat.cast_succ, zpow_natCast]
    exact_mod_cast Nat.lt_log2_self

/-- The logarithms leave two powers of two that a quotient may lie between. -/
private theorem log2_sub_bounds (hn : 0 < num) (hd : 0 < den) {e : Int}
    (he : (num.log2 : Int) - (den.log2 : Int) = e) :
    (2 : ℚ) ^ (e - 1) < num / den ∧ (num : ℚ) / den < 2 ^ (e + 1) := by
  have hd' : (0 : ℚ) < den := Nat.cast_pos.mpr hd
  have h2 : (2 : ℚ) ≠ 0 := two_ne_zero
  obtain ⟨hn1, hn2⟩ := log2_bounds hn
  obtain ⟨hd1, hd2⟩ := log2_bounds hd
  constructor
  · rw [lt_div_iff₀ hd']
    have hpos : (0 : ℚ) < 2 ^ (e - 1) := zpow_pos two_pos _
    have h := mul_lt_mul_of_pos_left hd2 hpos
    rw [← zpow_add₀ h2] at h
    refine lt_of_lt_of_le h (le_trans (le_of_eq ?_) hn1)
    congr 1
    omega
  · rw [div_lt_iff₀ hd']
    have hpos : (0 : ℚ) < 2 ^ (e + 1) := zpow_pos two_pos _
    have h := mul_le_mul_of_nonneg_left hd1 hpos.le
    rw [← zpow_add₀ h2] at h
    refine lt_of_lt_of_le hn2 (le_trans (le_of_eq ?_) h)
    congr 1
    omega

/-- A quotient lies between the power of two of its exponent and the next. -/
theorem binaryExponent_bounds (hn : 0 < num) (hd : 0 < den) :
    (2 : ℚ) ^ binaryExponent num den ≤ num / den ∧
      (num : ℚ) / den < 2 ^ (binaryExponent num den + 1) := by
  generalize hl : (num.log2 : Int) - (den.log2 : Int) = e
  obtain ⟨hlow, hhigh⟩ := log2_sub_bounds hn hd hl
  -- comparing the quotient with the middle power tells which one it is
  have hquot := scaled_div 2 two_pos num den e
  have hpos := scaled_snd_pos two_pos num hd e
  have hpe : (0 : ℚ) < (2 : Nat) ^ e := zpow_pos (by norm_num) _
  have hpos' : (0 : ℚ) < (scaled 2 num den e).2 := Nat.cast_pos.mpr hpos
  rw [binaryExponent]
  simp only [hl]
  split
  next hlt =>
    refine ⟨hlow.le, ?_⟩
    have h1 : ((scaled 2 num den e).1 : ℚ) / (scaled 2 num den e).2 < 1 := by
      rw [div_lt_one hpos']
      exact_mod_cast hlt
    rw [hquot, div_lt_one hpe] at h1
    rw [sub_add_cancel]
    exact_mod_cast h1
  next hge =>
    refine ⟨?_, hhigh⟩
    have h1 : 1 ≤ ((scaled 2 num den e).1 : ℚ) / (scaled 2 num den e).2 := by
      rw [one_le_div hpos']
      exact_mod_cast Nat.not_lt.mp hge
    rw [hquot, one_le_div hpe] at h1
    exact_mod_cast h1

/-! ## To the nearest binary number -/

/-- The magnitude of a binary number. -/
def magnitude (x : Binary64) : ℚ := x.significand * 2 ^ x.exponent

/-- The significand and the exponent are within the bounds of the format. -/
structure Valid (x : Binary64) : Prop where
  significand : x.significand < 2 ^ 53
  exponent : x.exponent ≤ greatestExponent

/-- Where numbers begin to be out of range: half a place beyond the largest
    one. -/
def overflow : ℚ := (2 ^ 53 - 1 / 2) * 2 ^ greatestExponent

@[simp] theorem magnitude_zero (negative : Bool) :
    (zero negative).magnitude = 0 := by
  rw [magnitude, zero, Nat.cast_zero, zero_mul]

theorem magnitude_eq_zero_iff {x : Binary64} :
    x.magnitude = 0 ↔ x.significand = 0 := by
  rw [magnitude, mul_eq_zero, Nat.cast_eq_zero]
  exact or_iff_left (zpow_pos two_pos _).ne'

theorem magnitude_nonneg (x : Binary64) : 0 ≤ x.magnitude :=
  mul_nonneg (Nat.cast_nonneg _) (zpow_nonneg two_pos.le _)

theorem valid_zero (negative : Bool) : (zero negative).Valid :=
  ⟨Nat.pow_pos two_pos, by decide +revert⟩

/-- The exponent that a quotient is rounded at. -/
def roundingExponent (num den : Nat) : Int :=
  max (binaryExponent num den - 52) leastExponent

/-- The integer that a quotient is rounded to, at that exponent. -/
def roundedAt (num den : Nat) : Nat :=
  roundHalfEven (scaled 2 num den (roundingExponent num den)).1
    (scaled 2 num den (roundingExponent num den)).2

/-- A binary number of the format, or none if its exponent is too large; a
    significand of `2 ^ 53` is carried over. -/
def normalized (negative : Bool) (m : Nat) (e : Int) : Option Binary64 :=
  if greatestExponent < (if m = 2 ^ 53 then e + 1 else e) then none
  else some (if m = 2 ^ 53 then ⟨negative, 2 ^ 52, e + 1⟩ else ⟨negative, m, e⟩)

theorem round_eq (negative : Bool) (hn : 0 < num) :
    round negative num den = normalized negative (roundedAt num den)
      (roundingExponent num den) := by
  have hcarry : round negative num den = (fun c : Nat × Int =>
      if greatestExponent < c.2 then none
      else some (Binary64.mk negative c.1 c.2))
        (if roundedAt num den = 2 ^ 53
          then (2 ^ 52, roundingExponent num den + 1)
          else (roundedAt num den, roundingExponent num den)) := by
    rw [round, if_neg (Nat.ne_of_gt hn)]
    rfl
  rw [hcarry, normalized]
  by_cases h : roundedAt num den = 2 ^ 53
  · rw [if_pos h, if_pos h, if_pos h]
  · rw [if_neg h, if_neg h, if_neg h]

private theorem normalized_none {negative : Bool} {m : Nat} {e : Int}
    (h : normalized negative m e = none) :
    greatestExponent < e ∨ (m = 2 ^ 53 ∧ e = greatestExponent) := by
  rw [normalized] at h
  by_cases hm : m = 2 ^ 53
  · rw [if_pos hm] at h
    by_cases he : greatestExponent < e + 1
    · omega
    · rw [if_neg he] at h
      exact nomatch h
  · rw [if_neg hm] at h
    by_cases he : greatestExponent < e
    · exact .inl he
    · rw [if_neg he] at h
      exact nomatch h

private theorem normalized_some {negative : Bool} {m : Nat} {e : Int}
    {x : Binary64} (hm : m ≤ 2 ^ 53) (h : normalized negative m e = some x) :
    x.Valid ∧ x.magnitude = m * 2 ^ e := by
  rw [normalized] at h
  by_cases hm' : m = 2 ^ 53
  · rw [if_pos hm', if_pos hm'] at h
    by_cases he : greatestExponent < e + 1
    · rw [if_pos he] at h
      exact nomatch h
    · rw [if_neg he] at h
      cases h
      refine ⟨⟨(by decide : 2 ^ 52 < 2 ^ 53), Int.not_lt.mp he⟩, ?_⟩
      change ((2 ^ 52 : Nat) : ℚ) * 2 ^ (e + 1) = _
      rw [hm', zpow_add_one₀ two_ne_zero, mul_comm ((2 : ℚ) ^ e), ← mul_assoc]
      congr 1
      norm_num
  · rw [if_neg hm', if_neg hm'] at h
    by_cases he : greatestExponent < e
    · rw [if_pos he] at h
      exact nomatch h
    · rw [if_neg he] at h
      cases h
      exact ⟨⟨Nat.lt_of_le_of_ne hm hm', Int.not_lt.mp he⟩, rfl⟩

/-- What a quotient is before it is rounded to an integer. -/
private theorem quotient_at (num den : Nat) (e : Int) :
    ((scaled 2 num den e).1 : ℚ) / (scaled 2 num den e).2
      = num / den / 2 ^ e := by
  have h := scaled_div 2 two_pos num den e
  exact_mod_cast h

private theorem quotient_lt (hn : 0 < num) (hd : 0 < den) :
    (num : ℚ) / den / 2 ^ roundingExponent num den < 2 ^ 53 := by
  rw [div_lt_iff₀ (zpow_pos two_pos _)]
  refine lt_of_lt_of_le (binaryExponent_bounds hn hd).2 ?_
  rw [← zpow_natCast, ← zpow_add₀ two_ne_zero]
  refine zpow_le_zpow_right₀ one_le_two ?_
  have h := Int.le_max_left (binaryExponent num den - 52) leastExponent
  rw [roundingExponent]
  omega

/-- The integer that a quotient is rounded to is near the quotient. -/
private theorem roundedAt_bounds (num : Nat) (hd : 0 < den) :
    (roundedAt num den : ℚ)
        ≤ num / den / 2 ^ roundingExponent num den + 1 / 2 ∧
      num / den / 2 ^ roundingExponent num den - 1 / 2
        ≤ (roundedAt num den : ℚ) ∧
      (roundedAt num den : ℚ)
        ≤ 2 * (num / den / 2 ^ roundingExponent num den) := by
  have hpos := scaled_snd_pos two_pos num hd (roundingExponent num den)
  rw [← quotient_at]
  exact ⟨roundHalfEven_le _ hpos, le_roundHalfEven _ hpos,
    roundHalfEven_le_two_mul _ hpos⟩

/-- Rounding at the exponent of a quotient gives 53 bits, or `2 ^ 53`. -/
theorem roundedAt_le (hn : 0 < num) (hd : 0 < den) :
    roundedAt num den ≤ 2 ^ 53 := by
  have hle := (roundedAt_bounds num hd).1
  have hlt := quotient_lt hn hd
  have hround : (roundedAt num den : ℚ) < ((2 ^ 53 + 1 : Nat) : ℚ) := by
    push_cast
    linarith
  exact Nat.lt_succ_iff.mp (Nat.cast_lt.mp hround)

/-- A quotient is out of range only from half a place beyond the largest
    number on. -/
theorem overflow_le_of_round_eq_none {negative : Bool} (hd : 0 < den)
    (h : round negative num den = none) : overflow ≤ num / den := by
  by_cases hn : num = 0
  · rw [hn, round, if_pos rfl] at h
    exact nomatch h
  have hn' := Nat.pos_of_ne_zero hn
  rw [round_eq negative hn'] at h
  have hbin := (binaryExponent_bounds hn' hd).1
  rcases normalized_none h with he | ⟨hm, he⟩
  · -- the exponent alone is too large
    have hexp : (1024 : Int) ≤ binaryExponent num den := by
      rw [roundingExponent, greatestExponent, leastExponent] at he
      omega
    have hpow : (2 : ℚ) ^ (1024 : Int) ≤ 2 ^ binaryExponent num den :=
      zpow_le_zpow_right₀ one_le_two hexp
    refine le_trans (le_trans ?_ hpow) hbin
    rw [overflow, greatestExponent]
    rw [show (1024 : Int) = 53 + 971 by decide, zpow_add₀ two_ne_zero]
    refine mul_le_mul_of_nonneg_right ?_ (zpow_nonneg two_pos.le _)
    norm_num
  · -- the significand has been rounded up to the next power of two
    have hle := (roundedAt_bounds num hd).1
    rw [hm, he] at hle
    have hq : (2 : ℚ) ^ 53 - 1 / 2 ≤ num / den / 2 ^ greatestExponent := by
      push_cast at hle
      linarith
    rw [le_div_iff₀ (zpow_pos two_pos _)] at hq
    exact hq

theorem isSome_round (negative : Bool) (hd : 0 < den)
    (h : (num : ℚ) / den < overflow) :
    ∃ x, round negative num den = some x := by
  cases hr : round negative num den with
  | none => exact absurd (overflow_le_of_round_eq_none hd hr) (not_le.mpr h)
  | some x => exact ⟨x, rfl⟩

variable {negative : Bool} {x : Binary64}

/-- A rounded number is the integer that the quotient is rounded to, at its
    exponent. -/
theorem magnitude_of_round (hd : 0 < den)
    (h : round negative num den = some x) :
    x.Valid ∧ (num ≠ 0 → x.magnitude
      = roundedAt num den * 2 ^ roundingExponent num den) ∧
      (num = 0 → x.magnitude = 0) := by
  by_cases hn : num = 0
  · rw [hn, round, if_pos rfl] at h
    cases h
    exact ⟨valid_zero negative, fun hne => absurd hn hne,
      fun _ => magnitude_zero negative⟩
  · have hn' := Nat.pos_of_ne_zero hn
    rw [round_eq negative hn'] at h
    obtain ⟨hv, hm⟩ := normalized_some (roundedAt_le hn' hd) h
    exact ⟨hv, fun _ => hm, fun h0 => absurd h0 hn⟩

theorem valid_of_round (hd : 0 < den) (h : round negative num den = some x) :
    x.Valid := (magnitude_of_round hd h).1

/-- Rounding at most doubles a quotient. -/
theorem round_magnitude_le_two_mul (hd : 0 < den)
    (h : round negative num den = some x) :
    x.magnitude ≤ 2 * (num / den) := by
  obtain ⟨-, hm, h0⟩ := magnitude_of_round hd h
  by_cases hn : num = 0
  · rw [h0 hn]
    positivity
  · rw [hm hn]
    have hle := (roundedAt_bounds num hd).2.2
    rw [← mul_div_assoc,
      le_div_iff₀ (zpow_pos two_pos _)] at hle
    exact hle

/-- The place that a quotient of at least one is rounded to. -/
private theorem place_le (hn : 0 < num) (hd : 0 < den)
    (hq : 1 ≤ (num : ℚ) / den) :
    (2 : ℚ) ^ roundingExponent num den ≤ num / den * 2 ^ (-52 : Int) := by
  obtain ⟨hlow, hhigh⟩ := binaryExponent_bounds hn hd
  have hexp : 0 < binaryExponent num den + 1 := by
    by_contra hneg
    have hle : (2 : ℚ) ^ (binaryExponent num den + 1) ≤ 2 ^ (0 : Int) :=
      zpow_le_zpow_right₀ one_le_two (Int.not_lt.mp hneg)
    rw [zpow_zero] at hle
    linarith
  have heq : roundingExponent num den = binaryExponent num den + -52 := by
    rw [roundingExponent, leastExponent]
    omega
  rw [heq, zpow_add₀ two_ne_zero]
  exact mul_le_mul_of_nonneg_right hlow (zpow_nonneg two_pos.le _)

private theorem ne_zero_of_one_le (hq : 1 ≤ (num : ℚ) / den) : num ≠ 0 := by
  intro h0
  rw [h0, Nat.cast_zero, zero_div] at hq
  linarith

/-- Rounding moves a quotient of at least one up by half a place at most. -/
theorem round_magnitude_le (hd : 0 < den) (hq : 1 ≤ (num : ℚ) / den)
    (h : round negative num den = some x) :
    x.magnitude ≤ num / den * (1 + 2 ^ (-53 : Int)) := by
  have hn := ne_zero_of_one_le hq
  rw [(magnitude_of_round hd h).2.1 hn]
  have hle := (roundedAt_bounds num hd).1
  have hplace := place_le (Nat.pos_of_ne_zero hn) hd hq
  have hpow : (0 : ℚ) < 2 ^ roundingExponent num den := zpow_pos two_pos _
  have hmul := mul_le_mul_of_nonneg_right hle hpow.le
  rw [add_mul, div_mul_cancel₀ _ hpow.ne'] at hmul
  have hhalf : (2 : ℚ) ^ (-52 : Int) = 2 * 2 ^ (-53 : Int) := by norm_num
  rw [hhalf] at hplace
  linarith

/-- Rounding takes away less than a half of a quotient of at least one. -/
theorem le_round_magnitude (hd : 0 < den) (hq : 1 ≤ (num : ℚ) / den)
    (h : round negative num den = some x) :
    num / den / 2 ≤ x.magnitude := by
  have hn := ne_zero_of_one_le hq
  rw [(magnitude_of_round hd h).2.1 hn]
  have hle := (roundedAt_bounds num hd).2.1
  have hplace := place_le (Nat.pos_of_ne_zero hn) hd hq
  have hpow : (0 : ℚ) < 2 ^ roundingExponent num den := zpow_pos two_pos _
  have hmul := mul_le_mul_of_nonneg_right hle hpow.le
  rw [sub_mul, div_mul_cancel₀ _ hpow.ne'] at hmul
  have hsmall : (num : ℚ) / den * 2 ^ (-52 : Int) ≤ num / den * 1 :=
    mul_le_mul_of_nonneg_left (by norm_num) (by linarith)
  linarith

/-! ## Products and quotients -/

theorem ratio_snd_pos (x : Binary64) : 0 < x.ratio.2 :=
  scaled_snd_pos two_pos _ one_pos _

theorem ratio_div (x : Binary64) :
    (x.ratio.1 : ℚ) / x.ratio.2 = x.magnitude := by
  have h := scaled_neg_div 2 two_pos x.significand x.exponent
  exact_mod_cast h

variable {y z : Binary64}

theorem product_div (x y : Binary64) :
    ((x.ratio.1 * y.ratio.1 : Nat) : ℚ) / ((x.ratio.2 * y.ratio.2 : Nat) : ℚ)
      = x.magnitude * y.magnitude := by
  rw [← ratio_div x, ← ratio_div y, Nat.cast_mul, Nat.cast_mul,
    div_mul_div_comm]

theorem quotient_div (x y : Binary64) :
    ((x.ratio.1 * y.ratio.2 : Nat) : ℚ) / ((x.ratio.2 * y.ratio.1 : Nat) : ℚ)
      = x.magnitude / y.magnitude := by
  rw [← ratio_div x, ← ratio_div y, Nat.cast_mul, Nat.cast_mul,
    div_div_div_eq]

theorem divisor_pos (hy : 0 < y.magnitude) (x : Binary64) :
    0 < x.ratio.2 * y.ratio.1 := by
  refine Nat.mul_pos (ratio_snd_pos x) (Nat.pos_of_ne_zero ?_)
  intro h0
  rw [← ratio_div y, h0, Nat.cast_zero, zero_div] at hy
  exact lt_irrefl _ hy

theorem isSome_mul (h : x.magnitude * y.magnitude < overflow) :
    ∃ z, x.mul y = some z := by
  rw [← product_div] at h
  exact isSome_round _ (Nat.mul_pos (ratio_snd_pos x) (ratio_snd_pos y)) h

theorem isSome_div (hy : 0 < y.magnitude)
    (h : x.magnitude / y.magnitude < overflow) : ∃ z, x.div y = some z := by
  rw [← quotient_div] at h
  exact isSome_round _ (divisor_pos hy x) h

theorem div_magnitude_le (hy : 0 < y.magnitude) (h : x.div y = some z) :
    z.magnitude ≤ 2 * (x.magnitude / y.magnitude) := by
  rw [← quotient_div]
  exact round_magnitude_le_two_mul (divisor_pos hy x) h

theorem valid_neg (h : x.Valid) : x.neg.Valid := ⟨h.significand, h.exponent⟩

end Binary64
end RiskExchange.Number
