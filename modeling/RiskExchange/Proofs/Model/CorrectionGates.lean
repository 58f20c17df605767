import RiskExchange.Model.BasicEvent
import RiskExchange.Proofs.Json.Underflow
import RiskExchange.Proofs.Solver.IntegerIds

/-! # Correction gates — which of them own an event

    An event is declared unless a correction gate owns it, which is one whose
    id is not zero as a number. The id is read as a binary number, so what is
    less than half the smallest positive one counts as zero too
    (`isPrimary_iff_tiny`). -/

namespace RiskExchange.Model

open RiskExchange.Json
open RiskExchange.Number
open RiskExchange.Solver (RawId)

variable {a : NumberLiteral} {n : Json.Number} {z : Binary64}

/-! ## Texts -/

/-- An id stands for no gate if it is read as zero. -/
theorem isPrimary_iff {i : RawId} : isPrimary i = true ↔
    ∃ z, Numeral.finite? (Text.trim i.written.toList) = some z ∧
      z.isZero = true := by
  rw [isPrimary, Probability.read?]
  cases Numeral.finite? (Text.trim i.written.toList) with
  | none => simp
  | some z => simp

/-- An id stands for no gate if and only if it is written as a literal that is
    at most half the smallest positive number. -/
theorem isPrimary_iff_literal {i : RawId} : isPrimary i = true ↔
    ∃ x, Numeral.Spells x (Text.trim i.written.toList) ∧
      |x.value| ≤ 2 ^ (-1075 : Int) := by
  have hvalue (x : Decimal) : |x.value| ≤ 2 ^ (-1075 : Int) ↔
      (x.ratio.1 : ℚ) / x.ratio.2 ≤ 2 ^ Binary64.leastExponent / 2 := by
    rw [Decimal.abs_value, Binary64.half_leastExponent, x.ratio_div]
  rw [isPrimary_iff]
  constructor
  · rintro ⟨z, hz, hzero⟩
    obtain ⟨x, hx, hxz⟩ := Numeral.finite?_eq_some_iff.mp hz
    rw [Decimal.toBinary64_eq_round] at hxz
    exact ⟨x, hx, (hvalue x).mpr
      ((Binary64.isZero_of_round_iff x.ratio_snd_pos hxz).mp hzero)⟩
  · rintro ⟨x, hx, hle⟩
    refine ⟨.zero x.negative, ?_, rfl⟩
    refine Numeral.finite?_eq_some_iff.mpr ⟨x, hx, ?_⟩
    rw [Decimal.toBinary64_eq_round,
      Binary64.round_eq_zero x.ratio_snd_pos ((hvalue x).mp hle)]

/-! ## Numbers -/

private theorem trim_written (n : Json.Number) :
    Text.trim (RawId.number n).written.toList = n.spell.chars := by
  rw [RawId.written, ← n.chars_spell]
  exact (NumberLiteral.spells_decimal n.wellSpelled_spell).trim_eq

/-- A number stands for no gate if what it is written as is that small. -/
theorem isPrimary_number_iff : isPrimary (.number n) = true ↔
    |n.spell.exact| ≤ 2 ^ (-1075 : Int) := by
  have hspells := NumberLiteral.spells_decimal n.wellSpelled_spell
  rw [isPrimary_iff_literal, trim_written, ← NumberLiteral.value_decimal]
  constructor
  · rintro ⟨x, hx, hle⟩
    rw [hspells.unique hx]
    exact hle
  · intro hle
    exact ⟨_, hspells, hle⟩

/-- A stored binary number stands for no gate if it is zero. -/
theorem isPrimary_float_iff (hz : z.Canonical) :
    isPrimary (.number (.float z)) = true ↔ z.isZero = true := by
  rw [isPrimary_iff, trim_written, Json.Number.chars_spell,
    Json.Number.finite?_text_float hz]
  constructor
  · rintro ⟨y, hy, hzero⟩
    cases hy
    exact hzero
  · intro hzero
    exact ⟨z, rfl, hzero⟩

theorem abs_exact (a : NumberLiteral) : |a.exact| = a.worth :=
  a.decimal.abs_value

/-- The factor of five roundings. -/
private theorem slack_le : slack ^ 5 ≤ 1 + 2 ^ (-47 : Int) := by
  rw [slack]
  norm_num

/-- A numeral that is read as a number stands for no gate if its value is at
    most half the smallest positive number, up to five roundings. -/
theorem isPrimary_of_numeral (ha : a.WellSpelled) (hfar : ¬a.HasFarExponent)
    (h : Json.Number.ofLiteral a = some n) :
    (isPrimary (.number n) = true →
      |a.exact| ≤ (1 + 2 ^ (-47 : Int)) * 2 ^ (-1075 : Int)) ∧
    ((1 + 2 ^ (-47 : Int)) * |a.exact| ≤ 2 ^ (-1075 : Int) →
      isPrimary (.number n) = true) := by
  have hworth : 0 ≤ |a.exact| := abs_nonneg _
  have hleast : (0 : ℚ) < 2 ^ (-1075 : Int) := zpow_pos two_pos _
  have hone : (1 : ℚ) ≤ 1 + 2 ^ (-47 : Int) :=
    (one_le_slack_pow 5).trans slack_le
  rcases NumberLiteral.spell_eq_or_float ha h with hspell | ⟨z, rfl⟩
  · rw [isPrimary_number_iff, hspell]
    constructor
    · intro hle
      exact hle.trans (le_mul_of_one_le_left hleast.le hone)
    · intro hle
      exact (le_mul_of_one_le_left hworth hone).trans hle
  · obtain ⟨q, hzero, hnear⟩ :=
      NumberLiteral.vanishesWith_of_ofLiteral ha hfar h
    rw [Binary64.half_leastExponent] at hzero
    rw [← abs_exact] at hnear
    rw [isPrimary_float_iff (Json.Number.stored_of_ofLiteral h), hzero]
    constructor
    · intro hle
      calc |a.exact| ≤ slack ^ 5 * q := hnear.ge
        _ ≤ slack ^ 5 * 2 ^ (-1075 : Int) :=
          mul_le_mul_of_nonneg_left hle (slack_pow_pos 5).le
        _ ≤ (1 + 2 ^ (-47 : Int)) * 2 ^ (-1075 : Int) :=
          mul_le_mul_of_nonneg_right slack_le hleast.le
    · intro hle
      calc q ≤ slack ^ 5 * |a.exact| := hnear.le
        _ ≤ (1 + 2 ^ (-47 : Int)) * |a.exact| :=
          mul_le_mul_of_nonneg_right slack_le hworth
        _ ≤ 2 ^ (-1075 : Int) := hle

/-- An id stands for no gate if and only if it is written, between blanks, as a
    literal that is at most half the smallest positive binary number. For a
    text that is the text itself. For a number of a document it is so up to the
    factor of five roundings; an exponent of more than 31 bits makes it zero in
    any case. -/
theorem isPrimary_iff_tiny (i : RawId) :
    (isPrimary i = true ↔
      ∃ x, Numeral.Spells x (Text.trim i.written.toList) ∧
        |x.value| ≤ 2 ^ (-1075 : Int)) ∧
    ∀ (a : NumberLiteral) (s : List Char),
      SpellsNumber a s → i.DecodedFrom s →
      (a.HasFarExponent → isPrimary i = true) ∧
      (¬a.HasFarExponent →
        (isPrimary i = true →
          |a.exact| ≤ (1 + 2 ^ (-47 : Int)) * 2 ^ (-1075 : Int)) ∧
        ((1 + 2 ^ (-47 : Int)) * |a.exact| ≤ 2 ^ (-1075 : Int) →
          isPrimary i = true)) := by
  constructor
  · exact isPrimary_iff_literal
  · intro a s hs hi
    obtain ⟨n, hn, rfl⟩ := (Solver.decodedFrom_iff hs).mp hi
    obtain ⟨ha, -⟩ := hs
    constructor
    · intro hfar
      rw [NumberLiteral.eq_zero_of_far hfar hn,
        isPrimary_float_iff (Binary64.canonical_zero _)]
      rfl
    · intro hfar
      exact isPrimary_of_numeral ha hfar hn

/-- Two and three times `10 ^ -324` lie on both sides of half the smallest
    positive number; `10 ^ -400` is zero as a number too. -/
theorem isPrimary_iff_tiny_cases :
    isPrimary (.text " 2e-324 ") = true ∧ isPrimary (.text "3e-324") ≠ true ∧
      ∃ i : RawId, i.DecodedFrom "1e-400".toList ∧ isPrimary i = true := by
  refine ⟨?_, ?_, ?_⟩
  · have hspells : Numeral.Spells ⟨false, 2, -324⟩
        (Text.trim " 2e-324 ".toList) :=
      Numeral.read?_eq_finite_iff.mp (by decide)
    exact (isPrimary_iff_tiny _).1.mpr ⟨_, hspells, by decide +kernel⟩
  · intro hprimary
    obtain ⟨x, hx, hle⟩ := (isPrimary_iff_tiny _).1.mp hprimary
    have hspells : Numeral.Spells ⟨false, 3, -324⟩
        (Text.trim "3e-324".toList) :=
      Numeral.read?_eq_finite_iff.mp (by decide)
    obtain rfl := hx.unique hspells
    exact absurd hle (by decide +kernel)
  · have hwell : NumberLiteral.WellSpelled
        ⟨false, [1], none, some (true, [4, 0, 0])⟩ := by
      refine ⟨by unfold AreDigits; decide, .inr ⟨1, [], rfl, by decide⟩,
        ?_, ?_⟩
      · rintro fs ⟨⟩
      · rintro down ds ⟨⟩
        exact ⟨by decide, by unfold AreDigits; decide⟩
    have hspells : SpellsNumber _ "1e-400".toList := spellsNumber_chars hwell
    have hread : Json.Number.ofLiteral
        ⟨false, [1], none, some (true, [4, 0, 0])⟩
          = some (.float (.zero false)) := by
      decide +kernel
    have hdecoded := (Solver.decodedFrom_iff hspells).mpr ⟨_, hread, rfl⟩
    refine ⟨_, hdecoded,
      (((isPrimary_iff_tiny _).2 _ _ hspells hdecoded).2 ?_).2 ?_⟩
    · rintro ⟨down, ds, h, hlt⟩
      cases h
      exact absurd hlt (by decide)
    · decide +kernel

/-- A gate of `10 ^ -400` is not zero, but its event is declared. -/
theorem tiny_gate_owns_nothing :
    (∃ x, Numeral.Spells x (Text.trim "1e-400".toList) ∧ x.value ≠ 0) ∧
      (ModelData.build
        [⟨.number (.natural 1), .text "1e-400", "A", .text "0.5"⟩]).result
        = .ok ⟨[⟨.tagged .basicEvent "1", "A", "5.000000E-01"⟩]⟩ := by
  constructor
  · exact ⟨⟨false, 1, -400⟩, Numeral.read?_eq_finite_iff.mp (by decide),
      by decide +kernel⟩
  · decide +kernel

end RiskExchange.Model
