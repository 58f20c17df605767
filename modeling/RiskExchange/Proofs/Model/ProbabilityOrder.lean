import RiskExchange.Proofs.Model.Probabilities
import RiskExchange.Proofs.Number.Order

/-! # Probability order — what is written is in the order of what is read

    A probability is written with its sign, and its digits denote a magnitude
    that grows with the one that was read (`Written`). Two roundings may make
    different numbers equal, but they never exchange them, in whatever way the
    numbers are spelled (`normalize_preserves_order`). -/

namespace RiskExchange.Model.Probability

open RiskExchange.Number
open RiskExchange.Number.Numeral (Spells)

/-- The text is a literal of the number, between blanks. -/
def Denotes (s : String) (q : ℚ) : Prop :=
  ∃ x, Spells x (Text.trim s.toList) ∧ x.value = q

theorem Denotes.unique {s : String} {p q : ℚ} (hp : Denotes s p)
    (hq : Denotes s q) : p = q := by
  obtain ⟨x, hx, rfl⟩ := hp
  obtain ⟨y, hy, rfl⟩ := hq
  rw [hx.unique hy]

/-! ## What is read and what is written -/

/-- The second decimal is written where the first is read: it has the same
    sign and the digits that the nearest binary number is shown with. -/
def Written (x d : Decimal) : Prop :=
  ∃ y, x.toBinary64 = some y ∧ d.negative = x.negative ∧
    d.magnitude = y.shown 6

namespace Written

variable {x x' d d' : Decimal}

theorem magnitude_mono (h : Written x d) (h' : Written x' d')
    (hle : x.magnitude ≤ x'.magnitude) : d.magnitude ≤ d'.magnitude := by
  obtain ⟨y, hy, -, hd⟩ := h
  obtain ⟨y', hy', -, hd'⟩ := h'
  rw [hd, hd']
  exact Binary64.shown_mono (Decimal.toBinary64_mono hy hy' hle)

theorem magnitude_eq_zero (h : Written x d) (hx : x.magnitude = 0) :
    d.magnitude = 0 := by
  obtain ⟨y, hy, -, hd⟩ := h
  have hcoefficient : x.coefficient = 0 := by
    rw [Decimal.magnitude, mul_eq_zero, Nat.cast_eq_zero] at hx
    exact hx.resolve_right (ten_zpow_pos _).ne'
  rw [Decimal.toBinary64, if_pos hcoefficient] at hy
  obtain rfl := Option.some.inj hy
  rw [hd]
  exact Binary64.shown_of_zero rfl

/-- Decimals are written in their order. -/
theorem value_mono (h : Written x d) (h' : Written x' d')
    (hle : x.value ≤ x'.value) : d.value ≤ d'.value := by
  have hsign : d.negative = x.negative := h.choose_spec.2.1
  have hsign' : d'.negative = x'.negative := h'.choose_spec.2.1
  have hpos := x.magnitude_nonneg
  have hpos' := x'.magnitude_nonneg
  rw [Decimal.value, Decimal.value] at hle ⊢
  rw [hsign, hsign']
  cases hx : x.negative with
  | false =>
      cases hx' : x'.negative with
      | false =>
          simp only [hx, hx', Bool.false_eq_true, if_false] at hle ⊢
          exact h.magnitude_mono h' hle
      | true =>
          -- a positive number is below a negative one only if both are zero
          simp only [hx, hx', Bool.false_eq_true, if_false, if_true] at hle ⊢
          rw [h.magnitude_eq_zero (by linarith),
            h'.magnitude_eq_zero (by linarith), neg_zero]
  | true =>
      cases hx' : x'.negative with
      | false =>
          simp only [Bool.false_eq_true, if_false, if_true]
          exact (neg_nonpos.mpr d.magnitude_nonneg).trans d'.magnitude_nonneg
      | true =>
          simp only [hx, hx', if_true] at hle ⊢
          exact neg_le_neg (h'.magnitude_mono h (neg_le_neg_iff.mp hle))

end Written

/-- What a binary number is written as is a literal of its significant
    digits. -/
theorem exists_spells_scientific (y : Binary64) :
    ∃ d : Decimal, Spells d (Text.trim (y.scientific format).toList) ∧
      d.negative = y.negative ∧ d.magnitude = y.shown 6 := by
  have hbounds : ((y.significant 6).1 = 0 ∨ 10 ^ 6 ≤ (y.significant 6).1) ∧
      (y.significant 6).1 < 10 ^ 7 := by
    by_cases hzero : y.significand = 0
    · rw [Binary64.significant, if_pos hzero]
      exact ⟨.inl rfl, by decide⟩
    · obtain ⟨hlow, hhigh⟩ := (shows_significant hzero 6).bounds
      exact ⟨.inr hlow, hhigh⟩
  obtain ⟨hlow, hhigh⟩ := hbounds
  have hformed :=
    wellFormed_parts hlow hhigh y.negative (y.significant 6).2
  refine ⟨(parts y.negative _ _).decimal, ?_, rfl,
    magnitude_decimal_parts hhigh y.negative _⟩
  rw [scientific_eq_text y hhigh, Parts.trim_text hformed]
  exact Parts.spells_chars hformed

/-- The solver's zero is a literal, and is written as if it were read. -/
private theorem written_zeroLiteral :
    Spells ⟨false, 0, -5⟩ (Text.trim zeroLiteral.toList) ∧
      Written ⟨false, 0, -5⟩ ⟨false, 0, -5⟩ := by
  refine ⟨Numeral.read?_eq_finite_iff.mp (by decide), .zero false, rfl, rfl, ?_⟩
  rw [Binary64.shown_of_zero rfl, Decimal.magnitude, Nat.cast_zero, zero_mul]

/-- An accepted text is a literal, and so is what it is written as. -/
theorem exists_written {raw s : String} (h : normalize raw = .ok s) :
    ∃ x d, Spells x (Text.trim raw.toList) ∧ Spells d (Text.trim s.toList) ∧
      Written x d := by
  by_cases hzero : raw = zeroLiteral
  · rw [hzero, normalize_zeroLiteral] at h
    cases h
    obtain ⟨hspells, hwritten⟩ := written_zeroLiteral
    rw [hzero]
    exact ⟨_, _, hspells, hspells, hwritten⟩
  · obtain ⟨x, y, hx, hxy, rfl⟩ := (normalize_eq_ok_iff hzero).mp h
    obtain ⟨d, hd, hsign, hmagnitude⟩ := exists_spells_scientific y
    obtain ⟨-, hsame⟩ := Decimal.inFormat_of_toBinary64 hxy
    exact ⟨x, d, hx, hd, y, hxy, hsign.trans hsame, hmagnitude⟩

/-- An accepted text denotes one number, and what is written for it denotes
    one. The numbers written for two texts are in the order of those that the
    texts denote. -/
theorem normalize_preserves_order :
    (∀ raw s, normalize raw = .ok s →
      (∃! q, Denotes raw q) ∧ ∃! r, Denotes s r) ∧
    ∀ raw raw' s s', normalize raw = .ok s → normalize raw' = .ok s' →
      ∀ q q' r r', Denotes raw q → Denotes raw' q' → Denotes s r →
        Denotes s' r' → q ≤ q' → r ≤ r' := by
  constructor
  · intro raw s h
    obtain ⟨x, d, hx, hd, -⟩ := exists_written h
    exact ⟨⟨x.value, ⟨x, hx, rfl⟩, fun q hq => hq.unique ⟨x, hx, rfl⟩⟩,
      ⟨d.value, ⟨d, hd, rfl⟩, fun r hr => hr.unique ⟨d, hd, rfl⟩⟩⟩
  · intro raw raw' s s' h h' q q' r r' hq hq' hr hr' hle
    obtain ⟨x, d, hx, hd, hwritten⟩ := exists_written h
    obtain ⟨x', d', hx', hd', hwritten'⟩ := exists_written h'
    obtain rfl := hq.unique ⟨x, hx, rfl⟩
    obtain rfl := hq'.unique ⟨x', hx', rfl⟩
    obtain rfl := hr.unique ⟨d, hd, rfl⟩
    obtain rfl := hr'.unique ⟨d', hd', rfl⟩
    exact hwritten.value_mono hwritten' hle

/-- A negative number that is carried into the next power of ten stays below
    one that is too small to be read as anything but zero. -/
theorem normalize_preserves_order_carried :
    normalize " -.9999999600e5" = .ok "-1.000000E+05" ∧
      normalize "-1e-400" = .ok "-0.000000E+00" ∧
      Denotes " -.9999999600e5" (-99999.996) ∧
      Denotes "-1e-400" (-(10 ^ (-400 : Int))) ∧
      Denotes "-1.000000E+05" (-100000) ∧ Denotes "-0.000000E+00" 0 ∧
      (-100000 : ℚ) ≤ 0 := by
  have hcarried : normalize " -.9999999600e5" = .ok "-1.000000E+05" := by
    decide +kernel
  have htiny : normalize "-1e-400" = .ok "-0.000000E+00" := by
    decide +kernel
  have hq : Denotes " -.9999999600e5" (-99999.996) :=
    ⟨⟨true, 9999999600, -5⟩, Numeral.read?_eq_finite_iff.mp (by decide +kernel),
      by norm_num [Decimal.value, Decimal.magnitude]⟩
  have hq' : Denotes "-1e-400" (-(10 ^ (-400 : Int))) := by
    refine ⟨⟨true, 1, -400⟩, Numeral.read?_eq_finite_iff.mp (by decide +kernel),
      ?_⟩
    rw [Decimal.value, Decimal.magnitude, if_pos rfl, Nat.cast_one, one_mul]
  have hr : Denotes "-1.000000E+05" (-100000) :=
    ⟨⟨true, 1000000, -1⟩, Numeral.read?_eq_finite_iff.mp (by decide +kernel),
      by norm_num [Decimal.value, Decimal.magnitude]⟩
  have hr' : Denotes "-0.000000E+00" 0 :=
    ⟨⟨true, 0, -6⟩, Numeral.read?_eq_finite_iff.mp (by decide +kernel),
      by norm_num [Decimal.value, Decimal.magnitude]⟩
  have hle : (-99999.996 : ℚ) ≤ -(10 ^ (-400 : Int)) := by
    have hone : (10 : ℚ) ^ (-400 : Int) ≤ 10 ^ (0 : Int) :=
      ten_zpow_mono (by decide)
    rw [zpow_zero] at hone
    linarith
  exact ⟨hcarried, htiny, hq, hq', hr, hr',
    normalize_preserves_order.2 _ _ _ _ hcarried htiny _ _ _ _ hq hq' hr hr'
      hle⟩

end RiskExchange.Model.Probability
