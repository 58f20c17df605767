import RiskExchange.Proofs.Json.Integers
import RiskExchange.Proofs.Number.Nearness

/-! # Underflow — which numerals are read as zero

    A numeral is scaled in steps that are rounded one by one, so one that is
    not zero is read as zero if it is less than half the smallest positive
    number. With at most five roundings the bound is sharp up to the factor of
    five roundings (`vanishesWith_of_ofLiteral`). An exponent that is not written
    out is the only exception. -/

namespace RiskExchange.Json

open RiskExchange.Number
open RiskExchange.Number.Binary64
open RiskExchange.Text (maxWord64)

namespace Number

variable {s k : Nat} {e : Int} {v : ℚ} {x y z : Binary64} {n : Number}

/-- The number is zero if and only if something near the value is at most half
    the smallest positive number. -/
def VanishesWith (n : Nat) (z : Binary64) (v : ℚ) : Prop :=
  ∃ q, (z.isZero = true ↔ q ≤ 2 ^ leastExponent / 2) ∧ Near n q v

theorem VanishesWith.of_near {m n : Nat} {w : ℚ} (h : VanishesWith m z v)
    (hw : Near n v w) : VanishesWith (m + n) z w := by
  obtain ⟨q, hz, hq⟩ := h
  exact ⟨q, hz, hq.trans hw⟩

theorem vanishesWith_tiny (n : Nat) (hz : z.isZero = true) (hv : 0 ≤ v)
    (h : v ≤ 2 ^ leastExponent / 2) : VanishesWith n z v :=
  ⟨v, iff_of_true hz h, .refl n hv⟩

theorem not_isZero_of_pos (h : 0 < x.magnitude) : ¬(x.isZero = true) :=
  fun h0 => h.ne' (magnitude_eq_zero_iff.mpr (beq_iff_eq.mp h0))

/-! ## Powers of ten -/

theorem near_powerOfTen (hk : k ≤ 308) :
    Near 1 (powerOfTen k).magnitude (10 ^ k) := by
  have hnear := near_of_round_natural (pow_ne_zero k (by decide))
    (round_powerOfTen hk)
  exact_mod_cast hnear

theorem powerOfTen_pos (hk : k ≤ 308) : 0 < (powerOfTen k).magnitude :=
  (near_powerOfTen hk).pos (pow_pos (by norm_num) k)

/-- A division by a power of ten costs one rounding more. -/
theorem vanishesWith_of_div {m : Nat} (hx : Near m x.magnitude v) (hv : 0 < v)
    (hk : k ≤ 308) (h : x.div (powerOfTen k) = some z) :
    VanishesWith (m + 1) z (v / 10 ^ k) :=
  ⟨_, isZero_of_div_iff (powerOfTen_pos hk) h,
    hx.div (near_powerOfTen hk) (hx.pos hv) hv (powerOfTen_pos hk)
      (pow_pos (by norm_num) k)⟩

theorem vanishesWith_of_mul {m : Nat} (hx : Near m x.magnitude v) (hv : 0 < v)
    (hk : k ≤ 308) (h : x.mul (powerOfTen k) = some z) :
    VanishesWith (m + 1) z (v * 10 ^ k) :=
  ⟨_, isZero_of_mul_iff h,
    hx.mul (near_powerOfTen hk) (hx.pos hv) hv (powerOfTen_pos hk)
      (pow_pos (by norm_num) k)⟩

/-! ## Scaling -/

theorem divideDown_of_isZero (h : x.isZero = true) (times : Nat) :
    divideDown x times = x := by
  cases times with
  | zero => rfl
  | succ times => rw [divideDown, if_pos h]

/-- Zero is scaled to zero. -/
theorem isZero_of_scale (hx : x.isZero = true) (h : scale x e = some z) :
    z.isZero = true := by
  have hmag : x.magnitude = 0 := magnitude_eq_zero_iff.mpr (beq_iff_eq.mp hx)
  cases e with
  | ofNat k =>
      rw [scale] at h
      by_cases hk : k ≤ 308
      · rw [if_pos hk] at h
        rw [isZero_of_mul_iff h, hmag, zero_mul]
        positivity
      · rw [if_neg hk, if_pos hx] at h
        cases h
        exact hx
  | negSucc k =>
      rw [scale, divideDown_of_isZero hx, if_pos hx] at h
      cases h
      exact hx

/-- The quotient of a word and `10 ^ 308` is still precise. -/
private theorem precise_quotient {q : ℚ} (hv : 1 ≤ v)
    (h : Near 2 q (v / 10 ^ 308)) : (2 : ℚ) ^ (-1024 : Int) ≤ q := by
  have hten : (0 : ℚ) < 10 ^ 308 := by positivity
  have hpow : (3 : ℚ) * 10 ^ 308 ≤ 2 * 2 ^ 1024 := by
    exact_mod_cast (by decide +kernel : 3 * 10 ^ 308 ≤ 2 * 2 ^ 1024)
  have hslack : slack ^ 2 ≤ 3 / 2 := by
    rw [slack]
    norm_num
  have hq : 0 ≤ q := (h.pos (div_pos (one_pos.trans_le hv) hten)).le
  have hge := h.ge
  rw [div_le_iff₀ hten] at hge
  rw [zpow_neg, inv_le_iff_one_le_mul₀ (zpow_pos two_pos _)]
  change 1 ≤ q * 2 ^ ((1024 : Nat) : Int)
  rw [zpow_natCast]
  generalize (10 : ℚ) ^ 308 = p at hten hpow hge
  generalize (2 : ℚ) ^ 1024 = w at hpow ⊢
  calc 1 ≤ v := hv
    _ ≤ slack ^ 2 * q * p := hge
    _ ≤ 3 / 2 * q * p := mul_le_mul_of_nonneg_right
        (mul_le_mul_of_nonneg_right hslack hq) hten.le
    _ = q * (3 * p / 2) := by ring
    _ ≤ q * w := mul_le_mul_of_nonneg_left (by linarith) hq

private theorem ten_pow_half_le : (10 : ℚ) ^ 308 / 2
    ≤ (powerOfTen 308).magnitude := (powerOfTen_bounds (by decide)).2

/-- A division by `10 ^ 308` takes as much away, but for a factor. -/
private theorem divideDown_one_le {b : ℚ} (hx : x.magnitude ≤ b) :
    ((x.div (powerOfTen 308)).getD (.zero false)).magnitude
      ≤ 4 * b / 10 ^ 308 := by
  have hb : 0 ≤ b := x.magnitude_nonneg.trans hx
  have hten : (0 : ℚ) < 10 ^ 308 := by positivity
  cases hd : x.div (powerOfTen 308) with
  | none =>
      rw [Option.getD_none, magnitude_zero]
      positivity
  | some y =>
      have hle := div_magnitude_le (powerOfTen_pos (by decide)) hd
      have hquot : x.magnitude / (powerOfTen 308).magnitude
          ≤ b / (10 ^ 308 / 2) :=
        div_le_div₀ hb hx (half_pos hten) ten_pow_half_le
      rw [Option.getD_some]
      generalize (10 : ℚ) ^ 308 = p at hquot ⊢
      calc y.magnitude ≤ 2 * (b / (p / 2)) := by linarith
        _ = 4 * b / p := by
          rw [div_div_eq_mul_div]
          ring

private theorem two_pow_leastExponent :
    (2 : ℚ) ^ leastExponent = (2 ^ 1074)⁻¹ := by
  rw [leastExponent, zpow_neg]
  rfl

/-- What is left after the first division is too small for the second. -/
private theorem quotient_tiny (hy : y.magnitude ≤ 4 * 2 ^ 65 / 10 ^ 308) :
    y.magnitude / (powerOfTen 308).magnitude ≤ 2 ^ leastExponent / 2 := by
  have hten : (0 : ℚ) < 10 ^ 308 := by positivity
  have hpow : (8 : ℚ) * 2 ^ 65 * (2 ^ 1074 * 2) ≤ 10 ^ 308 * 10 ^ 308 := by
    exact_mod_cast (by decide +kernel :
      8 * 2 ^ 65 * (2 ^ 1074 * 2) ≤ 10 ^ 308 * 10 ^ 308)
  have hword : (0 : ℚ) < 2 ^ 1074 := by positivity
  refine (div_le_div₀ (by positivity) hy (half_pos hten)
    ten_pow_half_le).trans ?_
  rw [two_pow_leastExponent]
  generalize (10 : ℚ) ^ 308 = p at hten hpow ⊢
  generalize (2 : ℚ) ^ 1074 = w at hword hpow ⊢
  rw [← one_div, div_div, div_div,
    div_le_div_iff₀ (mul_pos hten (half_pos hten)) (mul_pos hword two_pos)]
  linarith

/-- Dividing a word twice by `10 ^ 308` leaves zero. -/
theorem isZero_of_divideDown (hx : x.magnitude ≤ 2 ^ 65) (times : Nat) :
    (divideDown x (times + 2)).isZero = true := by
  by_cases h0 : x.isZero = true
  · rw [divideDown_of_isZero h0]
    exact h0
  rw [divideDown, if_neg h0]
  have hy := divideDown_one_le hx
  generalize (x.div (powerOfTen 308)).getD (.zero false) = y at hy ⊢
  by_cases h1 : y.isZero = true
  · rw [divideDown_of_isZero h1]
    exact h1
  rw [divideDown, if_neg h1]
  have hzero : ((y.div (powerOfTen 308)).getD (.zero false)).isZero
      = true := by
    cases hd : y.div (powerOfTen 308) with
    | none => rfl
    | some z =>
        exact (isZero_of_div_iff (powerOfTen_pos (by decide)) hd).mpr
          (quotient_tiny hy)
  rw [divideDown_of_isZero hzero]
  exact hzero

/-- A word times a power of ten below `10 ^ -616` is nothing. -/
private theorem word_tiny (hv : v ≤ 2 ^ 64) (he : e ≤ -616) :
    v * 10 ^ e ≤ 2 ^ leastExponent / 2 := by
  have hpow : (2 : ℚ) ^ 64 * (2 ^ 1074 * 2) ≤ 10 ^ 616 := by
    exact_mod_cast (by decide +kernel : 2 ^ 64 * (2 ^ 1074 * 2) ≤ 10 ^ 616)
  have hword : (0 : ℚ) < 2 ^ 1074 := by positivity
  have hten : (0 : ℚ) < 10 ^ 616 := by positivity
  have hsmall : (10 : ℚ) ^ e ≤ (10 ^ 616)⁻¹ := by
    refine (zpow_le_zpow_right₀ (by norm_num) he).trans_eq ?_
    rw [zpow_neg]
    rfl
  refine (mul_le_mul hv hsmall (zpow_nonneg (by norm_num) e)
    (by positivity)).trans ?_
  rw [two_pow_leastExponent]
  generalize (10 : ℚ) ^ 616 = p at hten hpow ⊢
  generalize (2 : ℚ) ^ 1074 = w at hword hpow ⊢
  rw [← div_eq_mul_inv, ← one_div, div_div,
    div_le_div_iff₀ hten (mul_pos hword two_pos), one_mul]
  exact hpow

private theorem mul_zpow_steps (v : ℚ) (times j : Nat) :
    v * 10 ^ (-(308 * (times : Int)) - j) = v / (10 ^ 308) ^ times / 10 ^ j := by
  rw [zpow_sub₀ (by norm_num), zpow_neg, zpow_mul, zpow_natCast, zpow_natCast,
    ← mul_div_assoc, ← div_eq_mul_inv]
  rfl

/-- The first division of a word by `10 ^ 308` costs two roundings more. -/
private theorem near_divideDown_one (hx : Near 1 x.magnitude v) (hv : 1 ≤ v)
    (hword : x.magnitude ≤ 2 ^ 65) :
    Near 3 (divideDown x 1).magnitude (v / 10 ^ 308) := by
  have hv0 : 0 < v := one_pos.trans_le hv
  have hpos := hx.pos hv0
  have hp := powerOfTen_pos (k := 308) (by decide)
  have hquot := hx.div (near_powerOfTen (k := 308) (by decide)) hpos hv0 hp
    (by positivity)
  obtain ⟨y, hy⟩ : ∃ y, x.div (powerOfTen 308) = some y := by
    refine isSome_div hp (lt_of_le_of_lt ?_ word_lt_overflow)
    have hfive := five_le_powerOfTen (n := 308) (by decide) (by decide)
    refine (div_le_self hpos.le (by linarith)).trans (hword.trans ?_)
    norm_num
  rw [divideDown, if_neg (not_isZero_of_pos hpos), hy]
  exact (near_of_div hp (precise_quotient hv hquot) hy).trans hquot

/-- What is near a word is scaled with three roundings more. -/
theorem vanishesWith_of_scale (hx : Near 1 x.magnitude v) (hv : 1 ≤ v)
    (hword : v ≤ 2 ^ 64) (h : scale x e = some z) :
    VanishesWith 4 z (v * 10 ^ e) := by
  have hv0 : 0 < v := one_pos.trans_le hv
  have hpos := hx.pos hv0
  have hx0 := not_isZero_of_pos hpos
  have hx64 : x.magnitude ≤ 2 ^ 65 := by
    have hslack : slack ^ 1 ≤ 2 := by
      rw [slack]
      norm_num
    calc x.magnitude ≤ slack ^ 1 * v := hx.le
      _ ≤ 2 * 2 ^ 64 := mul_le_mul hslack hword hv0.le (by norm_num)
      _ = 2 ^ 65 := by norm_num
  cases e with
  | ofNat k =>
      rw [scale] at h
      by_cases hk : k ≤ 308
      · rw [if_pos hk] at h
        rw [Int.ofNat_eq_natCast, zpow_natCast]
        exact (vanishesWith_of_mul hx hv0 hk h).of_near
          (.refl 2 (by positivity))
      · rw [if_neg hk, if_neg hx0] at h
        cases h
  | negSucc k =>
      rw [scale] at h
      have hrest : k % 308 + 1 ≤ 308 := Nat.mod_lt k (by decide)
      have hexp : Int.negSucc k = -(308 * ((k / 308 : Nat) : Int))
          - (k % 308 + 1 : Nat) := by omega
      rw [hexp]
      generalize k / 308 = times at h ⊢
      generalize k % 308 + 1 = j at h hrest ⊢
      cases times with
      | zero =>
          rw [divideDown, if_neg hx0] at h
          rw [mul_zpow_steps, pow_zero, div_one]
          exact (vanishesWith_of_div hx hv0 hrest h).of_near
            (.refl 2 (by positivity))
      | succ times =>
          cases times with
          | zero =>
              have hy := near_divideDown_one hx hv hx64
              have hv1 : 0 < v / 10 ^ 308 := by positivity
              rw [zero_add, if_neg (not_isZero_of_pos (hy.pos hv1))] at h
              rw [mul_zpow_steps, zero_add, pow_one]
              exact vanishesWith_of_div hy hv1 hrest h
          | succ times =>
              have hzero := isZero_of_divideDown hx64 times
              rw [if_pos hzero] at h
              cases h
              exact vanishesWith_tiny 4 hzero (by positivity)
                (word_tiny hword (by omega))

/-- A significand is rounded, scaled and rounded again. -/
theorem vanishesWith_of_ofParts {negative : Bool} (hs : s ≤ maxWord64)
    (h : ofParts negative s e = some (.float z)) :
    VanishesWith 4 z (s * 10 ^ e) := by
  rw [ofParts] at h
  obtain ⟨x, hx, h⟩ := Option.bind_eq_some_iff.mp h
  obtain ⟨y, hy, h⟩ := Option.bind_eq_some_iff.mp h
  have hz : z.isZero = y.isZero := by
    cases negative with
    | false =>
        cases h
        rfl
    | true =>
        cases h
        rfl
  have hvanishes : VanishesWith 4 y (s * 10 ^ e) := by
    by_cases h0 : s = 0
    · subst h0
      cases hx
      rw [Nat.cast_zero, zero_mul]
      exact vanishesWith_tiny 4 (isZero_of_scale rfl hy) le_rfl (by positivity)
    · have hone : (1 : ℚ) ≤ s := by
        exact_mod_cast Nat.one_le_iff_ne_zero.mpr h0
      have hword : (s : ℚ) ≤ 2 ^ 64 := by
        have hle : s ≤ 2 ^ 64 := Nat.le_trans hs (Nat.sub_le _ _)
        exact_mod_cast hle
      exact vanishesWith_of_scale (near_of_round_natural h0 hx) hone hword hy
  rw [VanishesWith, hz]
  exact hvanishes

/-! ## Digits that are left over -/

/-- Numbers between two multiples are near if there are many multiples below. -/
private theorem near_of_between {t p q : Nat} (k : Nat) (ht : 2 ^ 60 ≤ t)
    (hp : t * k ≤ p ∧ p ≤ (t + 1) * k) (hq : t * k ≤ q ∧ q ≤ (t + 1) * k) :
    Near 1 (p : ℚ) q := by
  have hunit : (2 : ℚ) ^ 60 * k ≤ t * k := by
    exact_mod_cast Nat.mul_le_mul_right k ht
  have hstep {p q : Nat} (hp : p ≤ (t + 1) * k) (hq : t * k ≤ q) :
      (p : ℚ) ≤ slack ^ 1 * q := by
    have hp' : (p : ℚ) ≤ (t + 1) * k := by exact_mod_cast hp
    have hq' : (t : ℚ) * k ≤ q := by exact_mod_cast hq
    rw [pow_one, slack]
    norm_num at hunit ⊢
    linarith
  exact ⟨hstep hp.2 hq.1, hstep hq.2 hp.1⟩

private theorem digitsValue_between {ds : List Nat} (h : AreDigits ds)
    (v : Nat) : v * 10 ^ ds.length ≤ Numeral.digitsValue v ds ∧
      Numeral.digitsValue v ds ≤ (v + 1) * 10 ^ ds.length :=
  ⟨mul_pow_le_digitsValue v ds, (digitsValue_lt_mul h v).le⟩

/-- Where digits are left over, many have been absorbed. -/
private theorem le_of_left_over {t d : Nat} (hd : d < 10)
    (h : maxWord64 < t * 10 + d) : 2 ^ 60 ≤ t := by
  have hword : maxWord64 = 2 ^ 64 - 1 := rfl
  omega

/-- What is absorbed of the digits before the point and then of those behind
    it, with its digits in their places, is near the value of all digits. -/
theorem near_absorb {whole places : List Nat} (hwhole : AreDigits whole)
    (hplaces : AreDigits places) :
    Near 1 (((absorb (absorb 0 whole).1 places).1
        * 10 ^ ((absorb 0 whole).2 + (absorb (absorb 0 whole).1 places).2)
          : Nat) : ℚ)
      (Numeral.digitsValue 0 (whole ++ places) : Nat) := by
  obtain ⟨as, bs, rfl, hread, hword, hend⟩ :=
    absorb_spec (Nat.zero_le maxWord64) whole
  rw [hread]
  obtain ⟨cs, ds, rfl, hread', -, hend'⟩ := absorb_spec hword places
  rw [hread', List.append_assoc, digitsValue_append]
  have hbs : AreDigits bs := fun d hd => hwhole d (List.mem_append_right _ hd)
  have hcs : AreDigits cs := fun d hd => hplaces d (List.mem_append_left _ hd)
  have hds : AreDigits ds := fun d hd => hplaces d (List.mem_append_right _ hd)
  cases bs with
  | nil =>
      rw [List.nil_append, digitsValue_append, List.length_nil, Nat.zero_add]
      cases ds with
      | nil =>
          rw [List.length_nil, Nat.pow_zero, Nat.mul_one]
          exact .refl 1 (Nat.cast_nonneg _)
      | cons d rest =>
          have hmany := le_of_left_over (hds d (List.mem_cons_self ..))
            (hend' d rest rfl)
          exact near_of_between _ hmany
            ⟨le_rfl, Nat.mul_le_mul_right _ (Nat.le_succ _)⟩
            (digitsValue_between hds _)
  | cons d rest =>
      -- the digits behind the point may be absorbed past those left over
      have hmany := le_of_left_over (hbs d (List.mem_cons_self ..))
        (hend d rest rfl)
      have hlength : 10 ^ (d :: rest ++ (cs ++ ds)).length
          = 10 ^ cs.length * 10 ^ ((d :: rest).length + ds.length) := by
        rw [← Nat.pow_add, List.length_append, List.length_append]
        congr 1
        omega
      obtain ⟨hlow, hhigh⟩ := digitsValue_between hcs
        (Numeral.digitsValue 0 as)
      refine near_of_between _ hmany ?_
        (digitsValue_between (hbs.append (hcs.append hds)) _)
      rw [hlength, ← Nat.mul_assoc, ← Nat.mul_assoc]
      exact ⟨Nat.mul_le_mul_right _ hlow, Nat.mul_le_mul_right _ hhigh⟩

end Number

namespace NumberLiteral

variable {a : NumberLiteral} {n : Number} {z : Binary64}

/-! ## Numerals -/

/-- The digits of a numeral that are absorbed. -/
def significand (a : NumberLiteral) : Nat :=
  (Number.absorb (Number.absorb 0 a.whole).1 a.places).1

/-- By how many places the absorbed digits are moved. -/
def shift (a : NumberLiteral) : Int :=
  (Number.absorb 0 a.whole).2 - (a.places.length
    - (Number.absorb (Number.absorb 0 a.whole).1 a.places).2 : Nat)

/-- The exponent is one that is not written out. -/
def HasFarExponent (a : NumberLiteral) : Prop :=
  ∃ down ds, a.exponent = some (down, ds) ∧
    Number.maxExponent < Numeral.digitsValue 0 ds

theorem significand_le (a : NumberLiteral) : a.significand ≤ maxWord64 :=
  (Number.absorb_le (Number.absorb_le (Nat.zero_le _) a.whole).1 a.places).1

/-- The absorbed digits are near the numeral. -/
theorem near_worth (h : a.WellSpelled) :
    Near 1 (a.significand * 10 ^ (a.shift + a.exponentValue)) a.worth := by
  have hnear := Number.near_absorb h.digits h.places
  have hunread := (Number.absorb_le
    (Number.absorb_le (Nat.zero_le _) a.whole).1 a.places).2.1
  have hten : (10 : ℚ) ≠ 0 := by norm_num
  have hpow : (a.significand : ℚ) * 10 ^ (a.shift + a.exponentValue)
      = a.significand * 10 ^ ((Number.absorb 0 a.whole).2
          + (Number.absorb (Number.absorb 0 a.whole).1 a.places).2)
        * 10 ^ (a.exponentValue - a.places.length) := by
    rw [mul_assoc, ← zpow_natCast, ← zpow_add₀ hten, shift]
    congr 2
    omega
  rw [hpow, worth]
  have hscaled := hnear.mul_right
    (r := 10 ^ (a.exponentValue - a.places.length)) (by positivity)
  push_cast at hscaled
  exact hscaled

private theorem ofLiteral_exponent {down : Bool} {ds : List Nat}
    (he : a.exponent = some (down, ds)) : Number.ofLiteral a =
      if Number.maxExponent < Numeral.digitsValue 0 ds then
        if a.significand ≠ 0 ∧ !down then none
        else some (.float (.zero a.negative))
      else Number.ofParts a.negative a.significand
        (a.shift + a.exponentValue) := by
  obtain ⟨negative, whole, fraction, exponent⟩ := a
  obtain rfl : exponent = some (down, ds) := he
  cases down with
  | false => cases fraction <;> rfl
  | true => cases fraction <;> rfl

/-- What a numeral with a far exponent is read as is zero. -/
theorem eq_zero_of_far (hfar : a.HasFarExponent)
    (h : Number.ofLiteral a = some n) : n = .float (.zero a.negative) := by
  obtain ⟨down, ds, he, hlt⟩ := hfar
  rw [ofLiteral_exponent he, if_pos hlt] at h
  split at h
  · cases h
  · exact (Option.some.inj h).symm

private theorem ofParts_of_plain (hf : a.fraction = none)
    (he : a.exponent = none) (h : Number.ofLiteral a = some (.float z)) :
    Number.ofParts a.negative a.significand a.shift = some (.float z) := by
  obtain ⟨negative, whole, fraction, exponent⟩ := a
  obtain rfl : fraction = none := hf
  obtain rfl : exponent = none := he
  rw [Number.ofLiteral] at h
  dsimp only at h
  split at h
  next hall =>
    have hshift : shift ⟨negative, whole, none, none⟩ = 0 :=
      congrArg (fun n : Nat => (n : Int)) hall
    rw [hshift]
    rw [Number.ofInteger] at h
    cases negative with
    | false => cases h
    | true =>
        rw [if_neg (by decide)] at h
        split at h
        · cases h
        · exact h
  next => exact h

/-- A numeral that is read as a binary number is read from its parts. -/
theorem ofParts_of_ofLiteral (hfar : ¬a.HasFarExponent)
    (h : Number.ofLiteral a = some (.float z)) :
    Number.ofParts a.negative a.significand (a.shift + a.exponentValue)
      = some (.float z) := by
  cases he : a.exponent with
  | none =>
      have hvalue : a.exponentValue = 0 := by
        rw [exponentValue, he]
      rw [hvalue, add_zero]
      cases hf : a.fraction with
      | none => exact ofParts_of_plain hf he h
      | some fs =>
          obtain ⟨negative, whole, fraction, exponent⟩ := a
          obtain rfl : fraction = some fs := hf
          obtain rfl : exponent = none := he
          exact h
  | some exponent =>
      obtain ⟨down, ds⟩ := exponent
      have hnot : ¬Number.maxExponent < Numeral.digitsValue 0 ds :=
        fun hlt => hfar ⟨down, ds, he, hlt⟩
      rw [ofLiteral_exponent he, if_neg hnot] at h
      exact h

/-- A numeral that is read as a binary number is read as zero if it is at most
    half the smallest positive number, up to five roundings. -/
theorem vanishesWith_of_ofLiteral (ha : a.WellSpelled)
    (hfar : ¬a.HasFarExponent) (h : Number.ofLiteral a = some (.float z)) :
    Number.VanishesWith 5 z a.worth :=
  (Number.vanishesWith_of_ofParts a.significand_le
    (ofParts_of_ofLiteral hfar h)).of_near (near_worth ha)

/-- Only an integer is read as one, and then it is spelled as it stands. -/
theorem spell_eq_or_float (ha : a.WellSpelled)
    (h : Number.ofLiteral a = some n) : n.spell = a ∨ ∃ z, n = .float z := by
  by_cases hplain : a.fraction = none ∧ a.exponent = none
  · have hinteger : a.IsInteger := ⟨ha, hplain.1, hplain.2⟩
    by_cases hword : a.InWord
    · exact .inl ((hinteger.spell_eq_iff h).mpr hword)
    · exact .inr (hinteger.float_of_not_inWord hword h)
  · exact .inr (float_of_ofLiteral hplain h)

end NumberLiteral
end RiskExchange.Json
