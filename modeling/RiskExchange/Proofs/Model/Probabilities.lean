import Mathlib.Data.Sign.Basic
import RiskExchange.Proofs.Model.ProbabilityText
import RiskExchange.Proofs.Number.SevenDigits

/-! # Probabilities — which are accepted, and what becomes of them

    A probability is accepted if it is a literal whose exact value is less than
    half a place beyond the largest binary number, and what is written is
    written again as it is (`normalize_accepts_iff`). Two roundings lie between
    the text that is read and the text that is written. Where binary numbers
    are precise, they cost little more than one, and seven digits lose nothing
    (`normalize_accurate`). What is written already is kept, but the sign of an
    exponent of zero is always a plus (`zero_exponent_loses_minus`). -/

namespace RiskExchange.Model.Probability

open RiskExchange.Number
open RiskExchange.Number.Numeral (Spells)

variable {raw s : String} {x : Decimal} {y : Binary64} {k : Nat} {t : Int}

/-! ## Reading and writing -/

/-- Any text but the solver's zero is read as a literal and written in
    scientific notation. -/
theorem normalize_eq_ok_iff (hne : raw ≠ zeroLiteral) :
    normalize raw = .ok s ↔
      ∃ x y, Spells x (Text.trim raw.toList) ∧ x.toBinary64 = some y ∧
        s = y.scientific format := by
  have hread : read? raw = Numeral.finite? (Text.trim raw.toList) := rfl
  rw [normalize, if_neg hne]
  constructor
  · intro h
    split at h
    next y hy =>
      rw [hread, Numeral.finite?_eq_some_iff] at hy
      obtain ⟨x, hx, hxy⟩ := hy
      cases h
      exact ⟨x, y, hx, hxy, rfl⟩
    next => exact nomatch h
  · rintro ⟨x, y, hx, hxy, rfl⟩
    rw [hread, Numeral.finite?_eq_some_iff.mpr ⟨x, hx, hxy⟩]

theorem normalize_zeroLiteral : normalize zeroLiteral = .ok zeroLiteral :=
  if_pos rfl

/-- A binary number that is shown with digits is written with them. -/
theorem scientific_of_shows (h : Shows 6 y.magnitude k t) :
    y.scientific format = (parts y.negative k t).text := by
  have hne : y.significand ≠ 0 :=
    fun h0 => h.pos.ne' (Binary64.magnitude_eq_zero_iff.mpr h0)
  have hshown := shows_significant hne 6
  obtain ⟨hk, ht⟩ := hshown.unique h
  rw [scientific_eq_text y hshown.bounds.2, hk, ht]

theorem scientific_of_zero (h : y.significand = 0) :
    y.scientific format = (parts y.negative 0 0).text := by
  have hzero : y.significant 6 = (0, 0) := by
    rw [Binary64.significant, if_pos h]
  rw [scientific_eq_text y (by rw [hzero]; decide), hzero]

theorem magnitude_decimal_parts (hk : k < 10 ^ 7) (negative : Bool) (t : Int) :
    (parts negative k t).decimal.magnitude = k * 10 ^ (t - 6) := by
  rw [Decimal.magnitude, Parts.decimal, coefficient_parts hk]
  rfl

/-- Well-formed parts that are read as a binary number written with them are
    written again. -/
theorem normalize_text {p : Parts} (hp : p.WellFormed)
    (hy : p.decimal.toBinary64 = some y) (hs : y.scientific format = p.text) :
    normalize p.text = .ok p.text := by
  by_cases hzero : p.text = zeroLiteral
  · rw [hzero]
    exact normalize_zeroLiteral
  · refine (normalize_eq_ok_iff hzero).mpr ⟨p.decimal, y, ?_, hy, hs.symm⟩
    rw [Parts.trim_text hp]
    exact Parts.spells_chars hp

/-! ## Writing again -/

theorem normalize_parts_zero (negative : Bool) :
    normalize (parts negative 0 0).text = .ok (parts negative 0 0).text := by
  refine normalize_text (wellFormed_parts (.inl rfl) (by decide) negative 0)
    (y := .zero negative) ?_ (scientific_of_zero rfl)
  rw [Decimal.toBinary64, if_pos]
  · rfl
  · exact coefficient_parts (by decide) negative 0

/-- Digits that are read as a binary number shown with them are written
    again. -/
theorem normalize_parts_of_shows {negative : Bool}
    (hy : (parts negative k t).decimal.toBinary64 = some y)
    (h : Shows 6 y.magnitude k t) :
    normalize (parts negative k t).text = .ok (parts negative k t).text := by
  obtain ⟨hk, hk'⟩ := h.bounds
  obtain ⟨-, hsign⟩ := Decimal.inFormat_of_toBinary64 hy
  refine normalize_text (wellFormed_parts (.inr hk) hk' negative t) hy ?_
  rw [scientific_of_shows h, hsign]
  rfl

/-- What a binary number is written as has the shape of a probability, and is
    written again. -/
theorem written_again (h : y.InFormat) :
    ∃ p : Parts, p.WellFormed ∧ y.scientific format = p.text ∧
      normalize p.text = .ok p.text := by
  by_cases hzero : y.significand = 0
  · exact ⟨_, wellFormed_parts (.inl rfl) (by decide) y.negative 0,
      scientific_of_zero hzero, normalize_parts_zero y.negative⟩
  · have hshown := shows_significant hzero 6
    obtain ⟨hk, hk'⟩ := hshown.bounds
    have hmag := magnitude_decimal_parts hk' y.negative (y.significant 6).2
    obtain ⟨z, hz⟩ := Decimal.exists_toBinary64
      (hmag ▸ hshown.lt_overflow h.toValid)
    exact ⟨_, wellFormed_parts (.inr hk) hk' y.negative _,
      scientific_of_shows hshown,
      normalize_parts_of_shows hz (hshown.again h hmag hz)⟩

/-- The accepted texts are the solver's zero and the literals in range. -/
theorem accepted_iff : (∃ s, normalize raw = .ok s) ↔
    raw = zeroLiteral ∨ ∃ x, Spells x (Text.trim raw.toList) ∧
      |x.value| < 2 ^ 1024 - 2 ^ 970 := by
  by_cases hzero : raw = zeroLiteral
  · rw [hzero]
    exact ⟨fun _ => .inl rfl, fun _ => ⟨zeroLiteral, normalize_zeroLiteral⟩⟩
  · constructor
    · rintro ⟨s, hs⟩
      obtain ⟨x, y, hx, hxy, -⟩ := (normalize_eq_ok_iff hzero).mp hs
      refine .inr ⟨x, hx, ?_⟩
      rw [Decimal.abs_value, ← Binary64.overflow_eq_sub, ← not_le,
        ← Decimal.toBinary64_eq_none_iff, hxy]
      exact Option.some_ne_none y
    · rintro (h | ⟨x, hx, hlt⟩)
      · exact absurd h hzero
      · rw [Decimal.abs_value, ← Binary64.overflow_eq_sub] at hlt
        obtain ⟨y, hy⟩ := Decimal.exists_toBinary64 hlt
        exact ⟨_, (normalize_eq_ok_iff hzero).mpr ⟨x, y, hx, hy, rfl⟩⟩

/-- Whatever is written has the shape of a probability, but for the solver's
    zero, and is written again. -/
theorem shape_of_normalize (h : normalize raw = .ok s) :
    (s ≠ zeroLiteral → ∃ p : Parts, p.WellFormed ∧ s = p.text) ∧
      normalize s = .ok s := by
  by_cases hzero : raw = zeroLiteral
  · rw [hzero, normalize_zeroLiteral] at h
    cases h
    exact ⟨fun hne => absurd rfl hne, normalize_zeroLiteral⟩
  · obtain ⟨x, y, hx, hxy, rfl⟩ := (normalize_eq_ok_iff hzero).mp h
    obtain ⟨hin, -⟩ := Decimal.inFormat_of_toBinary64 hxy
    obtain ⟨p, hp, htext, hagain⟩ := written_again hin
    rw [htext]
    exact ⟨fun _ => ⟨p, hp, rfl⟩, hagain⟩

/-- A probability is accepted if and only if it is the solver's zero or, with
    blanks around it, a literal whose value is less than half a place beyond the
    largest binary number. What is written is the solver's zero or has one
    shape, and is written again as it is. -/
theorem normalize_accepts_iff (raw : String) :
    ((∃ s, normalize raw = .ok s) ↔
      raw = zeroLiteral ∨ ∃ x, Spells x (Text.trim raw.toList) ∧
        |x.value| < 2 ^ 1024 - 2 ^ 970) ∧
    ∀ s, normalize raw = .ok s →
      (s ≠ zeroLiteral → ∃ p : Parts, p.WellFormed ∧ s = p.text) ∧
      normalize s = .ok s := by
  constructor
  · exact accepted_iff
  · intro s hs
    exact shape_of_normalize hs

/-- A quarter is written with seven digits, and then as it is. -/
theorem normalize_accepts_iff_quarter :
    normalize " .25 " = .ok "2.500000E-01" ∧
      normalize "2.500000E-01" = .ok "2.500000E-01" := by
  have hok : normalize " .25 " = .ok "2.500000E-01" := by decide +kernel
  exact ⟨hok, ((normalize_accepts_iff " .25 ").2 _ hok).2⟩

/-! ## Where binary numbers are precise -/

/-- The numbers that are read with the full precision of the format. -/
def Precise (q : ℚ) : Prop := (10 : ℚ) ^ (-307 : Int) ≤ |q| ∧ |q| < 10 ^ 308

/-- The number is written with seven significant digits at most. -/
def HasSevenDigits (q : ℚ) : Prop :=
  ∃ k : Nat, k < 10 ^ 7 ∧ ∃ e : Int, |q| = k * 10 ^ e

/-- A precise literal is in range, and is shown with seven digits. -/
theorem exists_shown (hx : Precise x.value) :
    ∃ y k t, x.toBinary64 = some y ∧ Shows 6 y.magnitude k t ∧
      |x.magnitude - y.magnitude| ≤ x.magnitude * 2 ^ (-53 : Int) := by
  obtain ⟨hlow, hhigh⟩ := hx
  rw [Decimal.abs_value] at hlow hhigh
  have hover : x.magnitude < Binary64.overflow :=
    hhigh.trans Binary64.ten_pow_lt_overflow
  obtain ⟨y, hy⟩ := Decimal.exists_toBinary64 hover
  have herror := abs_sub_toBinary64_le_of_normal hlow hy
  have hne : y.significand ≠ 0 := by
    intro h0
    have hzero : y.magnitude = 0 := Binary64.magnitude_eq_zero_iff.mpr h0
    have hpos : (0 : ℚ) < x.magnitude := (ten_zpow_pos _).trans_le hlow
    rw [hzero, sub_zero, abs_of_pos hpos] at herror
    exact herror.not_gt (mul_lt_of_lt_one_right hpos (by norm_num))
  exact ⟨y, _, _, hy, shows_significant hne 6, herror⟩

/-- The two roundings together are little more than half a unit. -/
theorem abs_sub_digits_le {q X : ℚ} (h : Shows 6 q k t)
    (herror : |X - q| ≤ X * 2 ^ (-53 : Int)) :
    |k * 10 ^ (t - 6) - X| ≤ 0.5000001 * 10 ^ (t - 6) := by
  have hnear := h.near
  have hlt := h.lt_pow
  have hunit : (10 : ℚ) ^ (t + 1) = 10 ^ 7 * 10 ^ (t - 6) := by
    rw [← zpow_natCast, ← zpow_add₀ (by norm_num)]
    congr 1
    omega
  rw [Nat.cast_ofNat, abs_sub_comm] at hnear
  rw [hunit] at hlt
  have hhalf : (2 : ℚ) ^ (-53 : Int) = 1 / 9007199254740992 := by norm_num
  rw [hhalf] at herror
  have htri := abs_sub_le ((k : ℚ) * 10 ^ (t - 6)) q X
  rw [abs_sub_comm q X] at htri
  have hX := (abs_le.mp herror).2
  have hpos : (0 : ℚ) < 10 ^ (t - 6) := ten_zpow_pos _
  norm_num
  linarith

private theorem exponent_ge (hk : k < 10 ^ 7)
    (h : (10 : ℚ) ^ (-307 : Int) ≤ k * 10 ^ (t - 6)) : -317 ≤ t := by
  have hlt : (k : ℚ) < 10 ^ (7 : Int) := by exact_mod_cast hk
  have hpow := h.trans_lt
    (mul_lt_mul_of_pos_right hlt (ten_zpow_pos (t - 6)))
  rw [← zpow_add₀ (by norm_num), zpow_lt_zpow_iff_right₀ (by norm_num)] at hpow
  omega

/-- Seven digits are shown as they are. -/
theorem magnitude_of_hasSevenDigits (hx : Precise x.value)
    (hseven : HasSevenDigits x.value) (hy : x.toBinary64 = some y)
    (h : Shows 6 y.magnitude k t) : (k : ℚ) * 10 ^ (t - 6) = x.magnitude := by
  obtain ⟨n, hn, e, heq⟩ := hseven
  have hlow := hx.1
  rw [Decimal.abs_value] at hlow heq
  have hpos : 0 < n := by
    refine Nat.pos_of_ne_zero fun h0 => ?_
    rw [heq, h0, Nat.cast_zero, zero_mul] at hlow
    exact hlow.not_gt (ten_zpow_pos _)
  obtain ⟨m, u, hm, hm', hmu⟩ := exists_seven hpos hn e
  rw [heq, hmu] at hlow
  have hshown := shows_of_seven hm hm' (exponent_ge hm' hlow)
    (heq.trans hmu) hy
  obtain ⟨rfl, rfl⟩ := h.unique hshown
  exact (heq.trans hmu).symm

private theorem sign_value (h : 0 < x.magnitude) :
    SignType.sign x.value = if x.negative then -1 else 1 := by
  rw [Decimal.value]
  split
  · exact sign_neg (neg_lt_zero.mpr h)
  · exact sign_pos h

private theorem ne_zeroLiteral_of_precise
    (hx : Spells x (Text.trim raw.toList)) (hp : Precise x.value) :
    raw ≠ zeroLiteral := by
  rintro rfl
  have hzero : Spells ⟨false, 0, -5⟩ (Text.trim zeroLiteral.toList) :=
    Numeral.read?_eq_finite_iff.mp (by decide)
  obtain rfl := hx.unique hzero
  have hlow := hp.1
  rw [Decimal.abs_value, Decimal.magnitude, Nat.cast_zero, zero_mul] at hlow
  exact hlow.not_gt (ten_zpow_pos _)

/-- A precise literal is written near to its value. -/
theorem exists_accurate (hx : Spells x (Text.trim raw.toList))
    (hprecise : Precise x.value) :
    ∃ p : Parts, p.WellFormed ∧ normalize raw = .ok p.text ∧
      |p.value - x.value| ≤ 0.5000001 * 10 ^ (p.exponent - 6) ∧
      SignType.sign p.value = SignType.sign x.value ∧
      (HasSevenDigits x.value → p.value = x.value) := by
  obtain ⟨y, k, t, hy, hshown, herror⟩ := exists_shown hprecise
  obtain ⟨hk, hk'⟩ := hshown.bounds
  obtain ⟨-, hsign⟩ := Decimal.inFormat_of_toBinary64 hy
  have hmag := magnitude_decimal_parts hk' y.negative t
  have hpos : (0 : ℚ) < k * 10 ^ (t - 6) := by
    have hk0 : 0 < k := by omega
    exact mul_pos (Nat.cast_pos.mpr hk0) (ten_zpow_pos _)
  have hxpos : 0 < x.magnitude := by
    rw [← Decimal.abs_value]
    exact (ten_zpow_pos _).trans_le hprecise.1
  refine ⟨parts y.negative k t, wellFormed_parts (.inr hk) hk' _ _, ?_, ?_,
    ?_, ?_⟩
  · exact (normalize_eq_ok_iff (ne_zeroLiteral_of_precise hx hprecise)).mpr
      ⟨x, y, hx, hy, (scientific_of_shows hshown).symm⟩
  · rw [Parts.value, Decimal.abs_value_sub hsign, hmag]
    exact abs_sub_digits_le hshown herror
  · rw [Parts.value, sign_value (hmag ▸ hpos), sign_value hxpos]
    exact congrArg (fun b : Bool => if b then -1 else 1) hsign
  · intro hseven
    have heq := magnitude_of_hasSevenDigits hprecise hseven hy hshown
    rw [← sub_eq_zero, ← abs_eq_zero, Parts.value,
      Decimal.abs_value_sub hsign, hmag, heq, sub_self, abs_zero]

theorem le_coefficient {p : Parts} (hp : p.WellFormed) (h : p.first ≠ 0) :
    10 ^ 6 ≤ p.coefficient := by
  have hle := mul_pow_le_digitsValue p.first p.places
  rw [hp.length] at hle
  have hfront : p.coefficient = Numeral.digitsValue p.first p.places :=
    congrArg (Numeral.digitsValue · p.places) (Nat.zero_add _)
  omega

/-- A literal of a precise probability is written as the probability is. -/
theorem normalize_of_precise {p : Parts} (hp : p.WellFormed)
    (hfirst : p.first ≠ 0) (hraw : Spells p.decimal (Text.trim raw.toList))
    (hprecise : Precise p.value) : normalize raw = .ok p.text := by
  obtain ⟨hk, heq⟩ := hp.eq_parts
  have hne := ne_zeroLiteral_of_precise hraw hprecise
  obtain ⟨hlow, hhigh⟩ := hprecise
  rw [Parts.value, Decimal.abs_value] at hlow hhigh
  obtain ⟨y, hy⟩ :=
    Decimal.exists_toBinary64 (hhigh.trans Binary64.ten_pow_lt_overflow)
  obtain ⟨-, hsign⟩ := Decimal.inFormat_of_toBinary64 hy
  have hshown := shows_of_seven (le_coefficient hp hfirst) hk
    (exponent_ge hk hlow) rfl hy
  refine (normalize_eq_ok_iff hne).mpr ⟨p.decimal, y, hraw, hy, ?_⟩
  rw [scientific_of_shows hshown, hsign]
  exact congrArg Parts.text heq

/-- A precise probability with seven digits is written with the same digits and
    signs, but for a minus in front of a zero exponent. -/
theorem normalize_spelling {p : Spelling} {x : Decimal} (hp : p.WellFormed)
    (hx : Spells x (Text.trim p.text.toList)) (hprecise : Precise x.value) :
    normalize p.text
      = .ok { p with down := p.down && p.exponent ≠ [0, 0] }.text := by
  obtain rfl := hx.unique hp.spells
  rw [← hp.text_toParts]
  exact normalize_of_precise hp.toParts hp.front hp.spells hprecise

theorem Spelling.text_down_inj {p : Spelling} {b c : Bool} :
    { p with down := b }.text = { p with down := c }.text ↔ b = c := by
  constructor
  · intro h
    have hsigns := List.append_cancel_left (String.ofList_inj.mp h)
    cases b <;> cases c
    · rfl
    · exact nomatch hsigns
    · exact nomatch hsigns
    · rfl
  · rintro rfl
    rfl

/-- So they are written unchanged exactly if there is no such minus. -/
theorem normalize_spelling_iff {p : Spelling} {x : Decimal} (hp : p.WellFormed)
    (hx : Spells x (Text.trim p.text.toList)) (hprecise : Precise x.value) :
    normalize p.text = .ok p.text ↔
      ¬ (p.down = true ∧ p.exponent = [0, 0]) := by
  have hsame : (p.down && decide (p.exponent ≠ [0, 0])) = p.down ↔
      ¬ (p.down = true ∧ p.exponent = [0, 0]) := by
    cases p.down <;> simp
  rw [normalize_spelling hp hx hprecise, Except.ok.injEq, ← hsame]
  exact Spelling.text_down_inj

/-- A literal in the precise range is written with its sign and within little
    more than half a unit of the last digit, and exactly if it has seven
    significant digits at most. So a text with seven digits, of which the first
    is not zero, and an exponent of two digits or more behind its sign is
    written unchanged, unless the exponent is a zero with a minus. That is
    written with a plus. -/
theorem normalize_accurate :
    (∀ raw x, Spells x (Text.trim raw.toList) → Precise x.value →
      ∃ p : Parts, p.WellFormed ∧ normalize raw = .ok p.text ∧
        |p.value - x.value| ≤ 0.5000001 * 10 ^ (p.exponent - 6) ∧
        SignType.sign p.value = SignType.sign x.value ∧
        (HasSevenDigits x.value → p.value = x.value)) ∧
    ∀ p : Spelling, p.WellFormed → ∀ x, Spells x (Text.trim p.text.toList) →
      Precise x.value →
      (normalize p.text = .ok p.text ↔
        ¬ (p.down = true ∧ p.exponent = [0, 0])) ∧
      (p.exponent = [0, 0] →
        normalize p.text = .ok { p with down := false }.text) := by
  constructor
  · intro raw x hx hprecise
    exact exists_accurate hx hprecise
  · intro p hp x hx hprecise
    refine ⟨normalize_spelling_iff hp hx hprecise, fun hzeros => ?_⟩
    rw [normalize_spelling hp hx hprecise]
    simp [hzeros]

private theorem precise_of_small {q : ℚ} (hlow : (10 : ℚ) ^ (-5 : Int) ≤ |q|)
    (hhigh : |q| < 10) : Precise q :=
  ⟨(ten_zpow_mono (by decide)).trans hlow,
    hhigh.trans (lt_self_pow₀ (by norm_num) (by decide))⟩

/-- Three tenths, a probability that is written as it is, and one that is
    not. -/
theorem normalize_accurate_three_tenths :
    (∃ p : Parts, normalize " 3e-1" = .ok p.text ∧ p.value = 3 / 10) ∧
      normalize "-1.234560E-05" = .ok "-1.234560E-05" ∧
      normalize "9.999999E-00" = .ok "9.999999E+00" := by
  obtain ⟨hliteral, hwritten⟩ := normalize_accurate
  have hvalue : (Decimal.mk false 3 (-1)).value = 3 / 10 := by
    norm_num [Decimal.value, Decimal.magnitude]
  have hspells : Spells ⟨false, 3, -1⟩ (Text.trim " 3e-1".toList) :=
    Numeral.read?_eq_finite_iff.mp (by decide)
  obtain ⟨p, -, hok, -, -, hexact⟩ := hliteral _ _ hspells
    (precise_of_small (by rw [hvalue]; norm_num) (by rw [hvalue]; norm_num))
  have hsmall : Spells ⟨true, 1234560, -11⟩
      (Text.trim "-1.234560E-05".toList) :=
    Numeral.read?_eq_finite_iff.mp (by decide)
  have hlarge : Spells ⟨false, 9999999, -6⟩
      (Text.trim "9.999999E-00".toList) :=
    Numeral.read?_eq_finite_iff.mp (by decide)
  refine ⟨⟨p, hok, (hexact ⟨3, by decide, -1, ?_⟩).trans hvalue⟩, ?_, ?_⟩
  · rw [hvalue]
    norm_num
  · let spelling : Spelling := ⟨true, 1, [2, 3, 4, 5, 6, 0], true, [0, 5]⟩
    have hformed : spelling.WellFormed :=
      ⟨by decide, rfl, by decide, by decide, .inl rfl⟩
    have hprecise : Precise (Decimal.mk true 1234560 (-11)).value := by
      apply precise_of_small <;> norm_num [Decimal.value, Decimal.magnitude]
    exact (hwritten spelling hformed _ hsmall hprecise).1.mpr (by decide)
  · let spelling : Spelling := ⟨false, 9, [9, 9, 9, 9, 9, 9], true, [0, 0]⟩
    have hformed : spelling.WellFormed :=
      ⟨by decide, rfl, by decide, by decide, .inl rfl⟩
    have hprecise : Precise (Decimal.mk false 9999999 (-6)).value := by
      apply precise_of_small <;> norm_num [Decimal.value, Decimal.magnitude]
    exact (hwritten spelling hformed _ hlarge hprecise).2 rfl

/-- The digits are those that would be written, and still the text is not
    written as it is: a zero exponent has lost its minus. -/
theorem zero_exponent_loses_minus :
    Spells ⟨false, 1000000, -6⟩ (Text.trim "1.000000E-00".toList) ∧
      Precise (Decimal.mk false 1000000 (-6)).value ∧
      normalize "1.000000E-00" = .ok "1.000000E+00" ∧
      normalize "1.000000E-00" ≠ .ok "1.000000E-00" := by
  have hok : normalize "1.000000E-00" = .ok "1.000000E+00" := by
    decide +kernel
  refine ⟨Numeral.read?_eq_finite_iff.mp (by decide), ?_, hok, ?_⟩
  · apply precise_of_small <;> norm_num [Decimal.value, Decimal.magnitude]
  · rw [hok]
    decide

end RiskExchange.Model.Probability
