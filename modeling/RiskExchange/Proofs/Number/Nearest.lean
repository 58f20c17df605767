import Mathlib.Algebra.Order.Ring.Abs
import RiskExchange.Proofs.Number.Rounding

/-! # Nearest — no binary number is nearer than the rounded one

    A quotient is rounded to the nearest integer, a half to the even one
    (`NearestEven`). That is monotone, so it is a function, and it is the same
    in any unit (`nearestEven_div_iff`). Hence no number of the binary format is
    nearer to a quotient than the one that it is rounded to
    (`abs_sub_round_le`), and a quotient is out of range exactly from half a
    place beyond the largest number on (`round_eq_none_iff`). -/

namespace RiskExchange.Number

/-! ## The nearest integer -/

/-- The integer is nearest to the number, and even if another is as near. -/
structure NearestEven (q : ℚ) (k : Nat) : Prop where
  near : |q - k| ≤ 1 / 2
  even : |q - k| = 1 / 2 → Even k

private theorem even_roundHalfEven {num den : Nat} (hd : 0 < den)
    (h : 2 * num = 2 * (den * roundHalfEven num den) + den ∨
      2 * num + den = 2 * (den * roundHalfEven num den)) :
    Even (roundHalfEven num den) := by
  have hdiv := Nat.div_add_mod num den
  have hmod := Nat.mod_lt num hd
  rw [Nat.even_iff]
  unfold roundHalfEven at h ⊢
  dsimp only at h ⊢
  split at h
  next hup =>
    rw [if_pos hup]
    have hmul : den * (num / den + 1) = den * (num / den) + den :=
      Nat.mul_succ ..
    omega
  next hdown =>
    rw [if_neg hdown]
    omega

theorem nearestEven_roundHalfEven (num : Nat) {den : Nat} (hd : 0 < den) :
    NearestEven (num / den) (roundHalfEven num den) where
  near := by
    have hle := roundHalfEven_le num hd
    have hge := le_roundHalfEven num hd
    rw [abs_le]
    constructor <;> linarith
  even := by
    intro htie
    have hd' : (den : ℚ) ≠ 0 := Nat.cast_ne_zero.mpr (Nat.ne_of_gt hd)
    refine even_roundHalfEven hd ?_
    rcases (abs_eq (by norm_num)).mp htie with h | h
    · left
      have hnum : (num : ℚ) / den = roundHalfEven num den + 1 / 2 := by
        linarith
      rw [div_eq_iff hd'] at hnum
      have : (2 : ℚ) * num = 2 * (den * roundHalfEven num den) + den := by
        rw [hnum]
        ring
      exact_mod_cast this
    · right
      have hnum : (num : ℚ) / den = roundHalfEven num den - 1 / 2 := by
        linarith
      rw [div_eq_iff hd'] at hnum
      have : (2 : ℚ) * num + den = 2 * (den * roundHalfEven num den) := by
        rw [hnum]
        ring
      exact_mod_cast this

/-- Counted in units of a power, a quotient is rounded to the nearest
    count. -/
theorem nearestEven_scaled {base den : Nat} (hb : 0 < base) (num : Nat)
    (hd : 0 < den) (e : Int) :
    NearestEven (num / den / (base : ℚ) ^ e)
      (roundHalfEven (scaled base num den e).1 (scaled base num den e).2) := by
  rw [← scaled_div base hb]
  exact nearestEven_roundHalfEven _ (scaled_snd_pos hb num hd e)

namespace NearestEven

variable {p q : ℚ} {j k : Nat}

/-- A greater number is not rounded to a smaller integer. -/
theorem mono (hj : NearestEven p j) (hk : NearestEven q k) (h : p ≤ q) :
    j ≤ k := by
  by_contra hlt
  have hle : (k : ℚ) + 1 ≤ j := by exact_mod_cast Nat.not_le.mp hlt
  obtain ⟨hp, -⟩ := abs_le.mp hj.near
  obtain ⟨-, hq⟩ := abs_le.mp hk.near
  -- both numbers are half way between two neighbours, which are both even
  have hj' : Even j := hj.even (by rw [abs_of_nonpos] <;> linarith)
  have hk' : Even k := hk.even (by rw [abs_of_nonneg] <;> linarith)
  have hsucc : j = k + 1 := by
    have : (j : ℚ) = ((k + 1 : Nat) : ℚ) := by
      push_cast
      linarith
    exact_mod_cast this
  rw [hsucc, Nat.even_add_one] at hj'
  exact hj' hk'

theorem unique (hj : NearestEven q j) (hk : NearestEven q k) : j = k :=
  Nat.le_antisymm (hj.mono hk le_rfl) (hk.mono hj le_rfl)

/-- No integer is nearer. -/
theorem le_abs_sub (h : NearestEven q k) (j : Nat) :
    |q - k| ≤ |q - j| := by
  by_cases hjk : j = k
  · rw [hjk]
  · have hone : (1 : ℚ) ≤ |(k : ℚ) - j| := by
      have hne : (k : Int) - j ≠ 0 := by omega
      have hint : (1 : Int) ≤ |(k : Int) - j| := Int.one_le_abs hne
      exact_mod_cast hint
    have htri : |(k : ℚ) - j| ≤ |q - k| + |q - j| := by
      rw [abs_sub_comm q k, ← sub_add_sub_cancel (k : ℚ) q j]
      exact abs_add_le _ _
    have := h.near
    linarith

theorem natCast (n : Nat) : NearestEven n n where
  near := by
    rw [sub_self, abs_zero]
    norm_num
  even h := by
    rw [sub_self, abs_zero] at h
    norm_num at h

theorem le_of_le {n : Nat} (h : NearestEven q k) (hq : q ≤ n) : k ≤ n :=
  h.mono (natCast n) hq

theorem ge_of_ge {n : Nat} (h : NearestEven q k) (hq : n ≤ q) : n ≤ k :=
  (natCast n).mono h hq

end NearestEven

section

variable {q u : ℚ}

private theorem abs_sub_mul_eq (hu : 0 < u) (k : Nat) :
    |q - k * u| = |q / u - k| * u := by
  rw [← abs_of_pos hu, ← abs_mul, abs_of_pos hu, sub_mul,
    div_mul_cancel₀ _ hu.ne']

/-- Counted in units, a number is within half a unit of its count. -/
theorem nearestEven_div_iff (hu : 0 < u) {k : Nat} :
    NearestEven (q / u) k ↔
      |q - k * u| ≤ u / 2 ∧ (|q - k * u| = u / 2 → Even k) := by
  rw [abs_sub_mul_eq hu, div_eq_mul_one_div u, mul_comm u,
    mul_le_mul_iff_left₀ hu, mul_left_inj' hu.ne']
  exact ⟨fun h => ⟨h.near, h.even⟩, fun h => ⟨h.1, h.2⟩⟩

/-- No other number of units is nearer. -/
theorem NearestEven.le_abs_sub_mul (hu : 0 < u) {k : Nat}
    (h : NearestEven (q / u) k) (j : Nat) : |q - k * u| ≤ |q - j * u| := by
  rw [abs_sub_mul_eq hu, abs_sub_mul_eq hu]
  exact mul_le_mul_of_nonneg_right (h.le_abs_sub j) hu.le

end

namespace Binary64

variable {num den : Nat} {negative : Bool} {x z : Binary64}

/-! ## The nearest binary number -/

/-- A number of the format: valid, and its exponent is not below the least
    one. -/
structure InFormat (x : Binary64) : Prop extends Valid x where
  least : leastExponent ≤ x.exponent

theorem inFormat_zero (negative : Bool) : (zero negative).InFormat :=
  ⟨valid_zero negative, le_rfl⟩

/-- A quotient is rounded to an integer number of places. -/
theorem nearestEven_roundedAt (num : Nat) (hd : 0 < den) :
    NearestEven (num / den / 2 ^ roundingExponent num den)
      (roundedAt num den) := by
  have hnear := nearestEven_scaled two_pos num hd (roundingExponent num den)
  rw [Nat.cast_ofNat] at hnear
  exact hnear

theorem leastExponent_le_roundingExponent (num den : Nat) :
    leastExponent ≤ roundingExponent num den :=
  Int.le_max_right ..

private theorem fields_of_normalized {m : Nat} {e : Int}
    (h : normalized negative m e = some x) :
    x.negative = negative ∧ e ≤ x.exponent := by
  rw [normalized] at h
  by_cases hm : m = 2 ^ 53
  · rw [if_pos hm, if_pos hm] at h
    split at h
    · cases h
    · cases h
      exact ⟨rfl, Int.le_add_one le_rfl⟩
  · rw [if_neg hm, if_neg hm] at h
    split at h
    · cases h
    · cases h
      exact ⟨rfl, le_rfl⟩

/-- A rounded number is of the format and has the sign asked for. -/
theorem inFormat_of_round (hd : 0 < den)
    (h : round negative num den = some x) :
    x.InFormat ∧ x.negative = negative := by
  have hvalid := valid_of_round hd h
  by_cases hn : num = 0
  · rw [hn, round, if_pos rfl] at h
    cases h
    exact ⟨inFormat_zero negative, rfl⟩
  · rw [round_eq negative (Nat.pos_of_ne_zero hn)] at h
    obtain ⟨hsign, hexp⟩ := fields_of_normalized h
    exact ⟨⟨hvalid, (leastExponent_le_roundingExponent num den).trans hexp⟩,
      hsign⟩

/-- Above the least exponent a quotient has 53 bits before the place that it
    is rounded at. -/
theorem pow_le_of_roundingExponent (hn : 0 < num) (hd : 0 < den)
    (h : leastExponent < roundingExponent num den) :
    (2 : ℚ) ^ (roundingExponent num den + 52) ≤ num / den := by
  refine le_trans (zpow_le_zpow_right₀ one_le_two ?_)
    (binaryExponent_bounds hn hd).1
  rw [roundingExponent] at h ⊢
  omega

/-- A number is a multiple of every smaller power of two. -/
theorem exists_multiple {e : Int} (h : e ≤ z.exponent) :
    ∃ j : Nat, z.magnitude = j * 2 ^ e := by
  obtain ⟨i, hi⟩ := Int.eq_ofNat_of_zero_le (Int.sub_nonneg.mpr h)
  refine ⟨z.significand * 2 ^ i, ?_⟩
  have hexp : z.exponent = (i : Int) + e := by omega
  rw [magnitude, hexp, zpow_add₀ two_ne_zero, zpow_natCast, ← mul_assoc]
  push_cast
  rfl

/-- A number of the format is a multiple of the place that a quotient is
    rounded at, or the quotient has more bits than the number. -/
private theorem multiple_or_lt (hz : z.InFormat) (hn : 0 < num)
    (hd : 0 < den) :
    (∃ j : Nat, z.magnitude = j * 2 ^ roundingExponent num den) ∨
      (z.magnitude < (2 ^ 52 : Nat) * 2 ^ roundingExponent num den ∧
        (2 ^ 52 : Nat) * 2 ^ roundingExponent num den ≤ (num : ℚ) / den) := by
  rcases lt_or_ge z.exponent (roundingExponent num den) with hlt | hge
  · right
    have hpow := pow_le_of_roundingExponent hn hd
      (Int.lt_of_le_of_lt hz.least hlt)
    have hplace : ((2 ^ 52 : Nat) : ℚ) * 2 ^ roundingExponent num den
        = 2 ^ (roundingExponent num den + 52) := by
      rw [zpow_add₀ two_ne_zero, mul_comm]
      norm_num
    rw [hplace]
    refine ⟨?_, hpow⟩
    have hsig : (z.significand : ℚ) < 2 ^ (53 : Int) := by
      exact_mod_cast hz.significand
    have hexp : (2 : ℚ) ^ (53 + z.exponent)
        ≤ 2 ^ (roundingExponent num den + 52) :=
      zpow_le_zpow_right₀ one_le_two (by omega)
    rw [zpow_add₀ two_ne_zero] at hexp
    exact lt_of_lt_of_le
      (mul_lt_mul_of_pos_right hsig (zpow_pos two_pos _)) hexp
  · exact .inl (exists_multiple hge)

/-- No number of the format is nearer to a quotient than the one that it is
    rounded to. -/
theorem abs_sub_round_le (hd : 0 < den)
    (h : round negative num den = some x) (hz : z.InFormat) :
    |num / den - x.magnitude| ≤ |num / den - z.magnitude| := by
  obtain ⟨-, hm, h0⟩ := magnitude_of_round hd h
  by_cases hn : num = 0
  · rw [h0 hn, hn, Nat.cast_zero, zero_div, sub_zero, abs_zero]
    exact abs_nonneg _
  -- among the multiples of the place, the integer nearest to the quotient wins
  have hmultiple (j : Nat) : |num / den - x.magnitude|
      ≤ |(num : ℚ) / den - j * 2 ^ roundingExponent num den| := by
    rw [hm hn]
    exact (nearestEven_roundedAt num hd).le_abs_sub_mul (zpow_pos two_pos _) j
  rcases multiple_or_lt hz (Nat.pos_of_ne_zero hn) hd with ⟨j, hj⟩ | ⟨hlt, hle⟩
  · rw [hj]
    exact hmultiple j
  · refine (hmultiple (2 ^ 52)).trans ?_
    rw [abs_of_nonneg (sub_nonneg.mpr hle),
      abs_of_nonneg (sub_nonneg.mpr (hlt.le.trans hle))]
    exact sub_le_sub_left hlt.le _

/-- Half the smallest positive number. -/
theorem half_leastExponent : (2 : ℚ) ^ leastExponent / 2 = 2 ^ (-1075 : Int) :=
  (zpow_sub_one₀ two_ne_zero leastExponent).symm

/-- Rounding moves a quotient by half a place at most, of its own place or of
    the least one. -/
theorem abs_sub_round_le_half (hd : 0 < den)
    (h : round negative num den = some x) :
    |num / den - x.magnitude|
      ≤ max ((num : ℚ) / den * 2 ^ (-53 : Int)) (2 ^ leastExponent / 2) := by
  obtain ⟨-, hm, h0⟩ := magnitude_of_round hd h
  by_cases hn : num = 0
  · rw [h0 hn, hn, Nat.cast_zero, zero_div, sub_zero, abs_zero]
    exact le_max_of_le_right (by positivity)
  have hn' := Nat.pos_of_ne_zero hn
  have hhalf : |(num : ℚ) / den - x.magnitude|
      ≤ 2 ^ roundingExponent num den / 2 := by
    rw [hm hn]
    exact ((nearestEven_div_iff (zpow_pos two_pos _)).mp
      (nearestEven_roundedAt num hd)).1
  refine hhalf.trans ?_
  rcases (leastExponent_le_roundingExponent num den).lt_or_eq with hlt | heq
  · refine le_max_of_le_left ?_
    have hle := pow_le_of_roundingExponent hn' hd hlt
    have hshift : (2 : ℚ) ^ roundingExponent num den / 2
        = 2 ^ (roundingExponent num den + 52) * 2 ^ (-53 : Int) := by
      rw [← zpow_add₀ two_ne_zero, div_eq_mul_inv,
        ← zpow_sub_one₀ two_ne_zero]
      congr 1
      omega
    rw [hshift]
    exact mul_le_mul_of_nonneg_right hle (zpow_nonneg two_pos.le _)
  · rw [heq]
    exact le_max_right _ _

/-! ## Out of range -/

theorem overflow_eq_sub : overflow = 2 ^ 1024 - 2 ^ 970 := by
  have hzpow : (2 : ℚ) ^ (971 : Int) = 2 * 2 ^ 970 := by
    rw [← pow_succ']
    exact zpow_natCast 2 971
  have hpow : (2 : ℚ) ^ 1024 = 2 ^ 54 * 2 ^ 970 := (pow_add 2 54 970)
  rw [overflow, greatestExponent, hzpow, hpow, ← mul_assoc, ← sub_one_mul]
  congr 1
  norm_num

theorem ten_pow_lt_overflow : (10 : ℚ) ^ 308 < overflow := by
  have hlt : (10 : ℚ) ^ 308 + 2 ^ 970 < 2 ^ 1024 := by
    exact_mod_cast (by decide +kernel : 10 ^ 308 + 2 ^ 970 < 2 ^ 1024)
  rw [overflow_eq_sub]
  exact lt_sub_iff_add_lt.mpr hlt

theorem pow_le_overflow : (2 : ℚ) ^ 1023 ≤ overflow := by
  have hle : (2 : ℚ) ^ 1023 + 2 ^ 970 ≤ 2 ^ 1024 := by
    exact_mod_cast (by decide +kernel : 2 ^ 1023 + 2 ^ 970 ≤ 2 ^ 1024)
  rw [overflow_eq_sub]
  exact le_sub_iff_add_le.mpr hle

/-- From half a place beyond the largest number on, a quotient is out of
    range. -/
theorem round_eq_none_of_overflow_le (hd : 0 < den)
    (h : overflow ≤ num / den) : round negative num den = none := by
  have hpos : (0 : ℚ) < num / den :=
    lt_of_lt_of_le (pow_pos two_pos _) (pow_le_overflow.trans h)
  have hn : 0 < num := by
    refine Nat.pos_of_ne_zero fun h0 => ?_
    rw [h0, Nat.cast_zero, zero_div] at hpos
    exact lt_irrefl _ hpos
  have hexp : greatestExponent ≤ roundingExponent num den := by
    have hlt : (2 : ℚ) ^ ((1023 : Nat) : Int)
        < 2 ^ (binaryExponent num den + 1) := by
      rw [zpow_natCast]
      exact lt_of_le_of_lt (pow_le_overflow.trans h)
        (binaryExponent_bounds hn hd).2
    have := (zpow_lt_zpow_iff_right₀ one_lt_two).mp hlt
    rw [roundingExponent, greatestExponent]
    omega
  rw [round_eq negative hn, normalized]
  rcases Int.lt_or_eq_of_le hexp with hlt | heq
  · rw [if_pos]
    split <;> omega
  · -- at the greatest exponent, the quotient is rounded up to a power of two
    have htie : NearestEven (2 ^ 53 - 1 / 2) (2 ^ 53) :=
      ⟨by norm_num [abs_of_nonpos], fun _ => by decide⟩
    have hquot : (2 : ℚ) ^ 53 - 1 / 2
        ≤ num / den / 2 ^ roundingExponent num den := by
      rw [le_div_iff₀ (zpow_pos two_pos _), ← heq]
      exact h
    have hge := htie.mono (nearestEven_roundedAt num hd) hquot
    have hm := Nat.le_antisymm (roundedAt_le hn hd) hge
    rw [if_pos]
    rw [if_pos hm, ← heq]
    exact Int.lt_succ _

theorem round_eq_none_iff (hd : 0 < den) :
    round negative num den = none ↔ overflow ≤ num / den :=
  ⟨overflow_le_of_round_eq_none hd, round_eq_none_of_overflow_le hd⟩

/-- Rounding at a place gives zero up to half the place, which is even. -/
private theorem roundedAt_eq_zero_iff (num : Nat) (hd : 0 < den) :
    roundedAt num den = 0 ↔
      (num : ℚ) / den ≤ 2 ^ roundingExponent num den / 2 := by
  have hrounded := nearestEven_roundedAt num hd
  have hplace : (0 : ℚ) < 2 ^ roundingExponent num den := zpow_pos two_pos _
  have hhalf : (num : ℚ) / den ≤ 2 ^ roundingExponent num den / 2 ↔
      (num : ℚ) / den / 2 ^ roundingExponent num den ≤ 1 / 2 := by
    rw [div_le_iff₀ hplace, one_div_mul_eq_div]
  rw [hhalf]
  constructor
  · intro h0
    have hle := (abs_le.mp hrounded.near).2
    rw [h0, Nat.cast_zero, sub_zero] at hle
    exact hle
  · intro hle
    have hzero : NearestEven (1 / 2) 0 := by
      refine ⟨?_, fun _ => Even.zero⟩
      rw [Nat.cast_zero, sub_zero, abs_of_pos (by norm_num)]
    exact Nat.le_zero.mp (hrounded.mono hzero hle)

/-- A quotient is rounded at the least place if it is at most as much. -/
private theorem roundingExponent_of_le (hn : 0 < num) (hd : 0 < den)
    (h : (num : ℚ) / den ≤ 2 ^ leastExponent) :
    roundingExponent num den = leastExponent := by
  have hpow := (binaryExponent_bounds hn hd).1.trans h
  have hexp := (zpow_le_zpow_iff_right₀ one_lt_two).mp hpow
  rw [roundingExponent]
  omega

/-- A quotient of at most half the smallest positive number is rounded to
    zero. -/
theorem round_eq_zero (hd : 0 < den)
    (h : (num : ℚ) / den ≤ 2 ^ leastExponent / 2) :
    round negative num den = some (zero negative) := by
  by_cases hn : num = 0
  · rw [hn, round, if_pos rfl]
  have hn' := Nat.pos_of_ne_zero hn
  have hexp := roundingExponent_of_le hn' hd
    (h.trans (half_le_self (zpow_nonneg two_pos.le _)))
  have hm := (roundedAt_eq_zero_iff num hd).mpr (hexp ▸ h)
  rw [round_eq negative hn', hm, hexp]
  rfl

/-- Nothing else is rounded to zero. -/
theorem isZero_of_round_iff (hd : 0 < den)
    (h : round negative num den = some x) :
    x.isZero = true ↔ (num : ℚ) / den ≤ 2 ^ leastExponent / 2 := by
  constructor
  · intro hzero
    obtain ⟨-, hm, -⟩ := magnitude_of_round hd h
    by_cases hn : num = 0
    · rw [hn, Nat.cast_zero, zero_div]
      positivity
    have hx := magnitude_eq_zero_iff.mpr (beq_iff_eq.mp hzero)
    have hplace : (0 : ℚ) < 2 ^ roundingExponent num den := zpow_pos two_pos _
    rw [hm hn, mul_eq_zero, or_iff_left hplace.ne', Nat.cast_eq_zero,
      roundedAt_eq_zero_iff num hd] at hx
    rcases (leastExponent_le_roundingExponent num den).lt_or_eq with hlt | heq
    · -- a quotient with 53 bits before its place is not below half of it
      have hpow := pow_le_of_roundingExponent (Nat.pos_of_ne_zero hn) hd hlt
      rw [zpow_add₀ two_ne_zero] at hpow
      have hbits : (1 : ℚ) ≤ 2 ^ (52 : Int) := by norm_num
      have hle := le_mul_of_one_le_right hplace.le hbits
      linarith
    · rw [heq]
      exact hx
  · intro hle
    rw [round_eq_zero hd hle] at h
    cases h
    rfl

/-! ## Stored numbers -/

/-- A number in the one form in which the format stores it: with 53 bits,
    unless its exponent is the least one. -/
structure Canonical (x : Binary64) : Prop extends InFormat x where
  bits : x.exponent = leastExponent ∨ 2 ^ 52 ≤ x.significand

theorem canonical_zero (negative : Bool) : (zero negative).Canonical :=
  ⟨inFormat_zero negative, .inl rfl⟩

theorem Canonical.neg (h : x.Canonical) : x.neg.Canonical :=
  ⟨⟨valid_neg h.toValid, h.least⟩, h.bits⟩

/-- A stored zero has the least exponent. -/
theorem Canonical.eq_zero (h : x.Canonical) (h0 : x.isZero = true) :
    x = zero x.negative := by
  obtain ⟨negative, m, e⟩ := x
  obtain rfl : m = 0 := beq_iff_eq.mp h0
  have he : e = leastExponent :=
    h.bits.resolve_right (by decide : ¬2 ^ 52 ≤ 0)
  rw [he]
  rfl

/-- A rounded number is in the stored form. -/
theorem canonical_of_round (hd : 0 < den)
    (h : round negative num den = some x) : x.Canonical := by
  refine ⟨(inFormat_of_round hd h).1, ?_⟩
  by_cases hn : num = 0
  · rw [hn, round, if_pos rfl] at h
    cases h
    exact .inl rfl
  have hn' := Nat.pos_of_ne_zero hn
  rw [round_eq negative hn', normalized] at h
  by_cases hm : roundedAt num den = 2 ^ 53
  · rw [if_pos hm, if_pos hm] at h
    split at h
    · cases h
    · cases h
      exact .inr le_rfl
  · rw [if_neg hm, if_neg hm] at h
    split at h
    · cases h
    · cases h
      rcases (leastExponent_le_roundingExponent num den).lt_or_eq with hlt | heq
      · -- the quotient has 53 bits, so the nearest integer has as many
        right
        refine (nearestEven_roundedAt num hd).ge_of_ge ?_
        rw [le_div_iff₀ (zpow_pos two_pos _)]
        refine le_trans (le_of_eq ?_) (pow_le_of_roundingExponent hn' hd hlt)
        rw [zpow_add₀ two_ne_zero, mul_comm]
        norm_num
      · exact .inl heq.symm

theorem canonical_of_mul {y : Binary64} (h : x.mul y = some z) :
    z.Canonical :=
  canonical_of_round (Nat.mul_pos x.ratio_snd_pos y.ratio_snd_pos) h

theorem canonical_of_div {y : Binary64} (hy : 0 < y.magnitude)
    (h : x.div y = some z) : z.Canonical :=
  canonical_of_round (divisor_pos hy x) h

end Binary64

end RiskExchange.Number
