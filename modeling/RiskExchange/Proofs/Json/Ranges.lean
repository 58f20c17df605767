import RiskExchange.Json.Number
import RiskExchange.Proofs.Number.Digits
import RiskExchange.Proofs.Number.Nearest

/-! # Ranges — which numerals denote a number

    What a reader makes of a numeral fits the formats that numbers are kept in
    (`inRange_of_ofLiteral`). A numeral is refused if it is too large after
    two roundings, of its digits and of a power of ten, and a third one of
    their product; so it is accepted if its exact value stays a few places
    below the largest binary number (`exists_ofLiteral`). -/

namespace RiskExchange.Json

open RiskExchange.Number (Binary64 Numeral.digitsValue cast_div_one
  digitsValue_append mul_pow_le_digitsValue)
open RiskExchange.Number.Binary64
open RiskExchange.Text (maxWord64)

namespace Number

variable {s : Nat} {ds : List Nat} {e : Int} {x y : Binary64}

/-! ## Digits -/

/-- The first digits are absorbed, up to one that does not fit any more. -/
theorem absorb_spec (hs : s ≤ maxWord64) (ds : List Nat) :
    ∃ as bs, ds = as ++ bs ∧
      absorb s ds = (Numeral.digitsValue s as, bs.length) ∧
      Numeral.digitsValue s as ≤ maxWord64 ∧
      ∀ d rest, bs = d :: rest →
        maxWord64 < Numeral.digitsValue s as * 10 + d := by
  induction ds generalizing s with
  | nil => exact ⟨[], [], rfl, rfl, hs, fun _ _ h => nomatch h⟩
  | cons d rest ih =>
      rw [absorb]
      by_cases hfit : s * 10 + d ≤ maxWord64
      · obtain ⟨as, bs, hsplit, hread, hword, hend⟩ := ih hfit
        rw [if_pos hfit]
        exact ⟨d :: as, bs, congrArg (d :: ·) hsplit, hread, hword, hend⟩
      · rw [if_neg hfit]
        refine ⟨[], d :: rest, rfl, rfl, hs, ?_⟩
        rintro d rest ⟨⟩
        exact Nat.lt_of_not_le hfit

/-- Digits that fit are all absorbed. -/
theorem absorb_of_le (h : Numeral.digitsValue s ds ≤ maxWord64) :
    absorb s ds = (Numeral.digitsValue s ds, 0) := by
  have hfirst {v : Nat} (more : List Nat) :
      v ≤ Numeral.digitsValue v more :=
    Nat.le_trans (Nat.le_mul_of_pos_right _ (Nat.pow_pos (by decide)))
      (mul_pow_le_digitsValue v more)
  obtain ⟨as, bs, rfl, hread, -, hend⟩ :=
    absorb_spec (Nat.le_trans (hfirst ds) h) ds
  rw [digitsValue_append] at h ⊢
  cases bs with
  | nil => exact hread
  | cons d rest =>
      have hlt := hend d rest rfl
      have hle := hfirst (v := Numeral.digitsValue s as * 10 + d) rest
      exact absurd h (Nat.not_le.mpr (Nat.lt_of_lt_of_le hlt hle))

/-- What is absorbed fits, and with zeros for the digits left over it is at
    most the value of all digits. -/
theorem absorb_le (hs : s ≤ maxWord64) (ds : List Nat) :
    (absorb s ds).1 ≤ maxWord64 ∧ (absorb s ds).2 ≤ ds.length ∧
      (absorb s ds).1 * 10 ^ (absorb s ds).2
        ≤ Numeral.digitsValue s ds := by
  obtain ⟨as, bs, rfl, hread, hword, -⟩ := absorb_spec hs ds
  rw [hread, List.length_append, digitsValue_append]
  exact ⟨hword, Nat.le_add_left .., mul_pow_le_digitsValue _ bs⟩

/-! ## Powers of ten -/

/-- Twice the largest error of one rounding, as a part of what is rounded. -/
private def oneRounding : ℚ := 1 + 2 ^ (-53 : Int)

theorem overflow_eq : overflow = (2 ^ 53 - 1 / 2) * 2 ^ 971 := by
  rw [overflow, greatestExponent]
  norm_cast

private theorem pow_lt_overflow {n : Nat} (hn : n ≤ 308) :
    (10 : ℚ) ^ n < overflow :=
  (pow_le_pow_right₀ (by norm_num) hn).trans_lt ten_pow_lt_overflow

theorem word_lt_overflow : (2 : ℚ) ^ 66 < overflow := by
  have hle : (2 : ℚ) ^ 66 ≤ 2 ^ 971 :=
    pow_le_pow_right₀ (by norm_num) (by decide)
  have hpos : (0 : ℚ) < 2 ^ 971 := by positivity
  have hfactor : (1 : ℚ) < 2 ^ 53 - 1 / 2 := by norm_num
  rw [overflow_eq]
  exact lt_of_le_of_lt hle (lt_mul_of_one_lt_left hpos hfactor)

theorem pow_div_one (n : Nat) :
    ((10 ^ n : Nat) : ℚ) / ((1 : Nat) : ℚ) = 10 ^ n := by
  rw [cast_div_one, Nat.cast_pow, Nat.cast_ofNat]

/-- The powers of ten are in range. -/
theorem round_powerOfTen {n : Nat} (hn : n ≤ 308) :
    Binary64.round false (10 ^ n) 1 = some (powerOfTen n) := by
  obtain ⟨p, hp⟩ := isSome_round false one_pos
    ((pow_div_one n).trans_lt (pow_lt_overflow hn))
  rw [hp]
  change some p = some ((Binary64.round false (10 ^ n) 1).getD (.zero false))
  rw [hp]
  rfl

/-- A power of ten is rounded to something near it. -/
theorem powerOfTen_bounds {n : Nat} (hn : n ≤ 308) :
    (powerOfTen n).magnitude ≤ 10 ^ n * oneRounding ∧
      10 ^ n / 2 ≤ (powerOfTen n).magnitude := by
  have hone : (1 : ℚ) ≤ ((10 ^ n : Nat) : ℚ) / ((1 : Nat) : ℚ) := by
    rw [pow_div_one]
    exact one_le_pow₀ (by norm_num)
  have hround := round_powerOfTen hn
  rw [← pow_div_one]
  exact ⟨round_magnitude_le one_pos hone hround,
    le_round_magnitude one_pos hone hround⟩

theorem five_le_powerOfTen {n : Nat} (h1 : n ≠ 0) (hn : n ≤ 308) :
    5 ≤ (powerOfTen n).magnitude := by
  have hten : (10 : ℚ) ^ 1 ≤ 10 ^ n :=
    pow_le_pow_right₀ (by norm_num) (Nat.pos_of_ne_zero h1)
  have h := (powerOfTen_bounds hn).2
  linarith

/-! ## Scaling -/

/-- Dividing by powers of ten makes no number larger. -/
theorem divideDown_magnitude_le (x : Binary64) (times : Nat) :
    (divideDown x times).magnitude ≤ x.magnitude := by
  induction times generalizing x with
  | zero => exact le_refl _
  | succ times ih =>
      rw [divideDown]
      by_cases hx : x.isZero = true
      · rw [if_pos hx]
      · rw [if_neg hx]
        refine le_trans (ih _) ?_
        have hfive := five_le_powerOfTen (n := 308) (by decide) (by decide)
        have hpos : 0 < (powerOfTen 308).magnitude := by linarith
        cases hd : x.div (powerOfTen 308) with
        | none =>
            rw [Option.getD_none, magnitude_zero]
            exact x.magnitude_nonneg
        | some z =>
            have hle := div_magnitude_le hpos hd
            have hdiv : x.magnitude / (powerOfTen 308).magnitude
                ≤ x.magnitude / 5 :=
              div_le_div_of_nonneg_left x.magnitude_nonneg (by norm_num) hfive
            have hx0 := x.magnitude_nonneg
            rw [Option.getD_some]
            linarith

theorem canonical_divideDown (hx : x.Canonical) (times : Nat) :
    (divideDown x times).Canonical := by
  induction times generalizing x with
  | zero => exact hx
  | succ times ih =>
      rw [divideDown]
      by_cases h0 : x.isZero = true
      · rw [if_pos h0]
        exact hx
      · rw [if_neg h0]
        refine ih ?_
        cases hd : x.div (powerOfTen 308) with
        | none => exact canonical_zero false
        | some z =>
            have hfive := five_le_powerOfTen (n := 308) (by decide) (by decide)
            exact canonical_of_div (by linarith) hd

private theorem exponent_le (n : Nat) : n % 308 + 1 ≤ 308 :=
  Nat.succ_le_of_lt (Nat.mod_lt n (by decide))

/-- Scaling a stored number gives a stored number, if any. -/
theorem canonical_of_scale (hx : x.Canonical) (h : scale x e = some y) :
    y.Canonical := by
  cases e with
  | ofNat n =>
      rw [scale] at h
      by_cases hn : n ≤ 308
      · rw [if_pos hn] at h
        exact canonical_of_mul h
      · rw [if_neg hn] at h
        by_cases h0 : x.isZero = true
        · rw [if_pos h0] at h
          cases h
          exact hx
        · rw [if_neg h0] at h
          exact nomatch h
  | negSucc n =>
      rw [scale] at h
      by_cases h0 : (divideDown x (n / 308)).isZero = true
      · rw [if_pos h0] at h
        cases h
        exact canonical_divideDown hx _
      · rw [if_neg h0] at h
        have hfive := five_le_powerOfTen (Nat.succ_ne_zero _) (exponent_le n)
        exact canonical_of_div (by linarith) h

/-- A number of 64 bits or so can always be scaled down. -/
theorem exists_scale_negSucc (hx : x.magnitude ≤ 2 ^ 65) (n : Nat) :
    ∃ y, scale x (.negSucc n) = some y := by
  rw [scale]
  by_cases h0 : (divideDown x (n / 308)).isZero = true
  · rw [if_pos h0]
    exact ⟨_, rfl⟩
  · rw [if_neg h0]
    have hfive := five_le_powerOfTen (Nat.succ_ne_zero _) (exponent_le n)
    have hle := divideDown_magnitude_le x (n / 308)
    have hpos := (divideDown x (n / 308)).magnitude_nonneg
    refine isSome_div (by linarith) (lt_of_le_of_lt ?_ word_lt_overflow)
    rw [div_le_iff₀ (by linarith)]
    have hmul : (2 : ℚ) ^ 65 * 1
        ≤ 2 ^ 66 * (powerOfTen (n % 308 + 1)).magnitude :=
      mul_le_mul (by norm_num) (by linarith) (by norm_num) (by norm_num)
    linarith

/-! ## Significands and exponents -/

/-- A bound on the exact value of a numeral that three roundings do not take
    out of range. -/
def reach : ℚ := (2 ^ 53 - 13 / 2) * 2 ^ 971

private theorem reach_lt_overflow :
    reach * oneRounding * oneRounding < overflow := by
  have hpos : (0 : ℚ) < 2 ^ 971 := by positivity
  rw [overflow_eq, reach]
  have hfactor : (2 ^ 53 - 13 / 2 : ℚ) * oneRounding * oneRounding
      < 2 ^ 53 - 1 / 2 := by
    rw [oneRounding]
    norm_num
  generalize (2 : ℚ) ^ 971 = p at hpos ⊢
  calc (2 ^ 53 - 13 / 2 : ℚ) * p * oneRounding * oneRounding
      = (2 ^ 53 - 13 / 2) * oneRounding * oneRounding * p := by ring
    _ < (2 ^ 53 - 1 / 2) * p := mul_lt_mul_of_pos_right hfactor hpos

theorem reach_lt_pow : reach < 10 ^ 309 := by
  have h309 : (2 : ℚ) ^ 53 * 2 ^ 971 < 10 ^ 309 := by
    exact_mod_cast (by decide +kernel : 2 ^ 53 * 2 ^ 971 < 10 ^ 309)
  have hpos : (0 : ℚ) < 2 ^ 971 := by positivity
  exact lt_trans (mul_lt_mul_of_pos_right (by norm_num) hpos) h309

/-- A significand is a binary number up to one rounding. -/
private theorem round_word (hs : s ≤ maxWord64) :
    ∃ x, Binary64.round false s 1 = some x ∧ x.Canonical ∧
      x.magnitude ≤ 2 ^ 65 ∧ x.magnitude ≤ s * oneRounding ∧
      (s = 0 → x.isZero = true) := by
  have hword : (s : ℚ) ≤ 2 ^ 64 := by
    have hle : s ≤ 2 ^ 64 := Nat.le_trans hs (Nat.sub_le _ _)
    exact_mod_cast hle
  have hlt : (s : ℚ) / ((1 : Nat) : ℚ) < overflow := by
    rw [cast_div_one]
    refine lt_of_le_of_lt hword (lt_trans ?_ word_lt_overflow)
    norm_num
  obtain ⟨x, hx⟩ := isSome_round false one_pos hlt
  have htwo := round_magnitude_le_two_mul one_pos hx
  rw [cast_div_one] at htwo
  have hstored := canonical_of_round one_pos hx
  by_cases h0 : s = 0
  · subst h0
    cases hx
    refine ⟨_, rfl, hstored, ?_, ?_, fun _ => rfl⟩
    · rw [magnitude_zero]
      norm_num
    · rw [magnitude_zero, Nat.cast_zero, zero_mul]
  · have hone : (1 : ℚ) ≤ (s : ℚ) / ((1 : Nat) : ℚ) := by
      rw [cast_div_one]
      exact_mod_cast Nat.pos_of_ne_zero h0
    have hle := round_magnitude_le one_pos hone hx
    rw [cast_div_one] at hle
    refine ⟨x, hx, hstored, ?_, hle, fun h => absurd h h0⟩
    linarith

/-- Whatever a significand and an exponent denote is a stored number. -/
theorem canonical_of_ofParts {negative : Bool} {n : Number}
    (hs : s ≤ maxWord64) (h : ofParts negative s e = some n) :
    ∃ y, n = .float y ∧ y.Canonical := by
  obtain ⟨x, hx, hstored, -⟩ := round_word hs
  rw [ofParts, hx] at h
  change (scale x e).bind _ = some n at h
  cases hsc : scale x e with
  | none =>
      rw [hsc] at h
      exact nomatch h
  | some y =>
      rw [hsc] at h
      cases h
      have hy := canonical_of_scale hstored hsc
      cases negative with
      | false => exact ⟨y, rfl, hy⟩
      | true => exact ⟨y.neg, rfl, hy.neg⟩

/-- A significand and an exponent denote a number if their exact value is
    within reach. -/
theorem exists_ofParts (negative : Bool) (hs : s ≤ maxWord64)
    (h : (s : ℚ) * 10 ^ e ≤ reach) : ∃ n, ofParts negative s e = some n := by
  obtain ⟨x, hx, -, hword, hle, hzero⟩ := round_word hs
  have hscale : ∃ y, scale x e = some y := by
    cases e with
    | negSucc n => exact exists_scale_negSucc hword n
    | ofNat n =>
        rw [Int.ofNat_eq_natCast, zpow_natCast] at h
        rw [scale]
        by_cases hn : n ≤ 308
        · rw [if_pos hn]
          refine isSome_mul (lt_of_le_of_lt ?_ reach_lt_overflow)
          have hone : (0 : ℚ) ≤ oneRounding := by
            rw [oneRounding]
            positivity
          have hmul := mul_le_mul hle (powerOfTen_bounds hn).1
            (magnitude_nonneg _) (mul_nonneg (Nat.cast_nonneg s) hone)
          refine le_trans hmul ?_
          calc (s : ℚ) * oneRounding * (10 ^ n * oneRounding)
              = s * 10 ^ n * (oneRounding * oneRounding) := by ring
            _ ≤ reach * (oneRounding * oneRounding) :=
              mul_le_mul_of_nonneg_right h (mul_nonneg hone hone)
            _ = reach * oneRounding * oneRounding := by ring
        · rw [if_neg hn]
          -- a larger power of ten leaves room for nothing but zero
          have hs0 : s = 0 := by
            by_contra hne
            have hone : (1 : ℚ) ≤ s := by
              exact_mod_cast Nat.pos_of_ne_zero hne
            have hpow : (10 : ℚ) ^ 309 ≤ 10 ^ n :=
              pow_le_pow_right₀ (by norm_num) (Nat.lt_of_not_le hn)
            have hle' : (10 : ℚ) ^ n ≤ s * 10 ^ n :=
              le_mul_of_one_le_left (by positivity) hone
            exact absurd (le_trans hpow (le_trans hle' h))
              (not_le.mpr reach_lt_pow)
          rw [if_pos (hzero hs0)]
          exact ⟨x, rfl⟩
  obtain ⟨y, hy⟩ := hscale
  rw [ofParts, hx]
  change ∃ n, (scale x e).bind _ = some n
  rw [hy]
  exact ⟨_, rfl⟩

/-! ## Literals -/

/-- The number is within the bounds of the format that it is kept in. -/
def InRange : Number → Prop
  | .natural n => n ≤ maxWord64
  | .negative m => 0 < m ∧ m ≤ 2 ^ 63
  | .float x => x.Valid

/-- The number is kept in the one form that its format has for it. -/
def Stored : Number → Prop
  | .natural n => n ≤ maxWord64
  | .negative m => 0 < m ∧ m ≤ 2 ^ 63
  | .float x => x.Canonical

theorem Stored.inRange {n : Number} (h : n.Stored) : n.InRange := by
  cases n with
  | natural n => exact h
  | negative m => exact h
  | float x =>
      have hx : x.Canonical := h
      exact hx.toValid

variable {l : NumberLiteral} {n : Number} {negative : Bool}

private theorem stored_of_ofParts (hs : s ≤ maxWord64)
    (h : ofParts negative s e = some n) : n.Stored := by
  obtain ⟨y, hn, hy⟩ := canonical_of_ofParts hs h
  rw [hn]
  exact hy

private theorem stored_of_ofInteger (hs : s ≤ maxWord64)
    (h : ofInteger negative s = some n) : n.Stored := by
  rw [ofInteger] at h
  cases negative with
  | false =>
      cases h
      exact hs
  | true =>
      by_cases hm : 0 < s ∧ s ≤ Nat.pow 2 63
      · rw [if_neg (by decide), if_pos hm] at h
        cases h
        exact hm
      · rw [if_neg (by decide), if_neg hm] at h
        exact stored_of_ofParts hs h

private theorem stored_of_withExponent {down : Bool}
    (hs : s ≤ maxWord64) (h : withExponent negative s e down ds = some n) :
    n.Stored := by
  unfold withExponent at h
  dsimp only at h
  split at h
  · split at h
    · exact nomatch h
    · cases h
      exact canonical_zero negative
  · exact stored_of_ofParts hs h

/-- What a literal denotes is kept in the form of its format. -/
theorem stored_of_ofLiteral (h : ofLiteral l = some n) : n.Stored := by
  rw [ofLiteral] at h
  have h1 := (absorb_le (Nat.zero_le maxWord64) l.whole).1
  generalize absorb 0 l.whole = whole at h h1
  obtain ⟨s, dropped⟩ := whole
  dsimp only at h h1
  split at h
  · split at h
    · exact stored_of_ofInteger h1 h
    · exact stored_of_ofParts h1 h
  · have h2 := (absorb_le h1 (l.fraction.getD [])).1
    generalize absorb s (l.fraction.getD []) = all at h h2
    obtain ⟨t, unread⟩ := all
    dsimp only at h h2
    split at h
    · exact stored_of_ofParts h2 h
    · exact stored_of_withExponent h2 h

/-- What a literal denotes is within the bounds of its format. -/
theorem inRange_of_ofLiteral (h : ofLiteral l = some n) : n.InRange :=
  (stored_of_ofLiteral h).inRange

end Number

namespace NumberLiteral

/-- The digits behind the point. -/
def places (l : NumberLiteral) : List Nat := l.fraction.getD []

/-- The exponent as spelled. -/
def exponentValue (l : NumberLiteral) : Int :=
  match l.exponent with
  | none => 0
  | some (down, digits) =>
    if down then -(Numeral.digitsValue 0 digits : Int)
    else Numeral.digitsValue 0 digits

/-- The exact magnitude of a numeral. -/
def worth (l : NumberLiteral) : ℚ :=
  Numeral.digitsValue 0 (l.whole ++ l.places)
    * 10 ^ (l.exponentValue - l.places.length)

/-- A numeral with a point or an exponent, whose integer part fits 64 bits, and
    whose exponent, if it is positive, is one that is written out. -/
structure IsFloat (l : NumberLiteral) : Prop where
  marked : l.fraction ≠ none ∨ l.exponent ≠ none
  whole : Numeral.digitsValue 0 l.whole ≤ maxWord64
  exponent : ∀ digits, l.exponent = some (false, digits) →
    Numeral.digitsValue 0 digits ≤ Number.maxExponent

end NumberLiteral

namespace Number

variable {l : NumberLiteral}

private theorem ofLiteral_of_isFloat (h : l.IsFloat) : ofLiteral l =
    (match l.exponent with
      | none => ofParts l.negative
          (absorb (Numeral.digitsValue 0 l.whole) l.places).1
          (((0 : Nat) : Int) - (l.places.length
            - (absorb (Numeral.digitsValue 0 l.whole) l.places).2 : Nat))
      | some (down, digits) => withExponent l.negative
          (absorb (Numeral.digitsValue 0 l.whole) l.places).1
          (((0 : Nat) : Int) - (l.places.length
            - (absorb (Numeral.digitsValue 0 l.whole) l.places).2 : Nat))
          down digits) := by
  obtain ⟨negative, whole, fraction, exponent⟩ := l
  rw [ofLiteral, absorb_of_le h.whole]
  cases fraction with
  | some fraction => rfl
  | none =>
      cases exponent with
      | some exponent => rfl
      | none => exact absurd h.marked (by simp)

/-- A numeral with a point or an exponent denotes a number if its exact
    magnitude is within reach. -/
theorem exists_ofLiteral (h : l.IsFloat) (hw : l.worth ≤ reach) :
    ∃ n, ofLiteral l = some n := by
  rw [ofLiteral_of_isFloat h]
  obtain ⟨h1, h2, h3⟩ := absorb_le h.whole l.places
  rw [← digitsValue_append] at h3
  generalize absorb (Numeral.digitsValue 0 l.whole) l.places = read
    at h1 h2 h3 ⊢
  obtain ⟨s, unread⟩ := read
  dsimp only at h1 h2 h3 ⊢
  -- what is left over of the digits only makes the value smaller
  have hle : (s : ℚ) * 10 ^ (((0 : Nat) : Int)
      - (l.places.length - unread : Nat) + l.exponentValue) ≤ reach := by
    refine le_trans ?_ hw
    have hcast : (s : ℚ) * 10 ^ unread
        ≤ Numeral.digitsValue 0 (l.whole ++ l.places) := by
      exact_mod_cast h3
    have hpow : ((0 : Nat) : Int) - (l.places.length - unread : Nat)
        + l.exponentValue
        = unread + (l.exponentValue - l.places.length) := by omega
    rw [hpow, zpow_add₀ (by norm_num), zpow_natCast, ← mul_assoc]
    exact mul_le_mul_of_nonneg_right hcast (by positivity)
  rw [NumberLiteral.exponentValue] at hle
  cases hexp : l.exponent with
  | none =>
      rw [hexp, add_zero] at hle
      exact exists_ofParts l.negative h1 hle
  | some exponent =>
      obtain ⟨down, digits⟩ := exponent
      rw [hexp] at hle
      dsimp only at hle ⊢
      rw [withExponent]
      change ∃ n, (if maxExponent < Numeral.digitsValue 0 digits then _
        else _) = some n
      cases down with
      | false =>
          rw [if_neg (Nat.not_lt.mpr (h.exponent digits hexp))]
          exact exists_ofParts l.negative h1 hle
      | true =>
          split
          · exact ⟨_, if_neg (by simp)⟩
          · exact exists_ofParts l.negative h1 hle

end Number
end RiskExchange.Json
