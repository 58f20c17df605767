import RiskExchange.Proofs.Json.DecimalReading

/-! # Integers — which are kept with their digits

    An integer of 64 bits is kept as it stands, as unsigned or, with a minus, as
    signed. Any other integer, and a zero with a minus, is a binary number once
    it has been read. -/

namespace RiskExchange.Json

open RiskExchange.Number (AreDigits Binary64 Numeral.digitsValue
  decimalDigits_digitsValue)
open RiskExchange.Text (maxWord64)

variable {a b : NumberLiteral} {n m : Number}

/-- What is scaled by a power of ten is a binary number. -/
theorem Number.float_of_ofParts {negative : Bool} {significand : Nat} {e : Int}
    (hn : Number.ofParts negative significand e = some n) :
    ∃ x, n = .float x := by
  obtain ⟨x, -, hn⟩ := Option.bind_eq_some_iff.mp hn
  obtain ⟨y, -, hn⟩ := Option.bind_eq_some_iff.mp hn
  exact ⟨_, (Option.some.inj hn).symm⟩

namespace NumberLiteral

/-- An integer, with or without a minus and with no zero in front of other
    digits. -/
structure IsInteger (a : NumberLiteral) : Prop extends WellSpelled a where
  noFraction : a.fraction = none
  noExponent : a.exponent = none

theorem IsInteger.ofDigits {negative : Bool} {ds : List Nat}
    (hds : AreDigits ds)
    (hfront : ds = [0] ∨ ∃ d rest, ds = d :: rest ∧ d ≠ 0) :
    IsInteger ⟨negative, ds, none, none⟩ :=
  ⟨wellSpelled_integer hds hfront, rfl, rfl⟩

/-- The digits stand for an unsigned number of 64 bits, or with a minus for a
    negative number of 64 bits. -/
def InWord (a : NumberLiteral) : Prop :=
  if a.negative then
    0 < Numeral.digitsValue 0 a.whole ∧ Numeral.digitsValue 0 a.whole ≤ 2 ^ 63
  else Numeral.digitsValue 0 a.whole ≤ maxWord64

/-- An integer in 64 bits is read and spelled as it stands. -/
theorem IsInteger.ofLiteral_of_inWord (ha : a.IsInteger) (h : a.InWord) :
    ∃ n, Number.ofLiteral a = some n ∧ n.spell = a := by
  have hdigits := decimalDigits_digitsValue ha.digits ha.front
  obtain ⟨negative, ds, fraction, exponent⟩ := a
  obtain ⟨-, rfl, rfl⟩ := ha
  dsimp only at hdigits
  cases negative with
  | false =>
      have hword : Numeral.digitsValue 0 ds ≤ maxWord64 := h
      refine ⟨.natural (Numeral.digitsValue 0 ds), ?_, ?_⟩
      · rw [ofLiteral_integer false hword]
        rfl
      · rw [Number.spell, hdigits]
  | true =>
      have hbits : 0 < Numeral.digitsValue 0 ds ∧
          Numeral.digitsValue 0 ds ≤ 2 ^ 63 := h
      refine ⟨.negative (Numeral.digitsValue 0 ds), ?_, ?_⟩
      · rw [ofLiteral_integer true (Nat.le_trans hbits.2 (by decide))]
        exact if_pos hbits
      · rw [Number.spell, hdigits]

/-- Other digits alone are read as a binary number, if it is not too large. -/
theorem float_of_not_inWord (hplain : a.fraction = none ∧ a.exponent = none)
    (h : ¬a.InWord) (hn : Number.ofLiteral a = some n) :
    ∃ x, n = .float x := by
  obtain ⟨negative, ds, fraction, exponent⟩ := a
  obtain ⟨rfl, rfl⟩ := hplain
  obtain ⟨as, bs, rfl, hread, hword, -⟩ :=
    Number.absorb_spec (Nat.zero_le maxWord64) ds
  rw [Number.ofLiteral, hread] at hn
  dsimp only at hn
  split at hn
  next hall =>
    obtain rfl := List.eq_nil_of_length_eq_zero hall
    rw [InWord, List.append_nil] at h
    rw [Number.ofInteger] at hn
    cases negative with
    | false => exact absurd hword h
    | true =>
        rw [if_neg (by decide)] at hn
        split at hn
        next hbits => exact absurd hbits h
        next => exact Number.float_of_ofParts hn
  next => exact Number.float_of_ofParts hn

theorem IsInteger.float_of_not_inWord (ha : a.IsInteger) (h : ¬a.InWord)
    (hn : Number.ofLiteral a = some n) : ∃ x, n = .float x :=
  NumberLiteral.float_of_not_inWord ⟨ha.noFraction, ha.noExponent⟩ h hn

/-- A literal with a point or an exponent is read as a binary number. -/
theorem float_of_ofLiteral (h : ¬(a.fraction = none ∧ a.exponent = none))
    (hn : Number.ofLiteral a = some n) : ∃ x, n = .float x := by
  rw [Number.ofLiteral] at hn
  generalize Number.absorb 0 a.whole = whole at hn
  obtain ⟨significand, dropped⟩ := whole
  dsimp only at hn
  split at hn
  next hfraction hexponent => exact absurd ⟨hfraction, hexponent⟩ h
  next =>
    generalize Number.absorb significand (a.fraction.getD []) = all at hn
    obtain ⟨total, unread⟩ := all
    dsimp only at hn
    split at hn
    next => exact Number.float_of_ofParts hn
    next =>
      simp only [Number.withExponent] at hn
      split at hn
      · split at hn
        · cases hn
        · exact ⟨_, (Option.some.inj hn).symm⟩
      · exact Number.float_of_ofParts hn

/-- What is read as an unsigned number are the literals of digits alone whose
    value is of 64 bits. -/
theorem ofLiteral_eq_natural_iff {k : Nat} :
    Number.ofLiteral a = some (.natural k) ↔
      (a.negative = false ∧ a.fraction = none ∧ a.exponent = none) ∧
        Numeral.digitsValue 0 a.whole = k ∧ k ≤ maxWord64 := by
  constructor
  · intro h
    have hfloat : ¬∃ x, Number.natural k = .float x := by
      rintro ⟨x, hx⟩
      cases hx
    have hplain : a.fraction = none ∧ a.exponent = none := by
      by_contra hnot
      exact hfloat (float_of_ofLiteral hnot h)
    have hword : a.InWord := by
      by_contra hnot
      exact hfloat (float_of_not_inWord hplain hnot h)
    obtain ⟨negative, ds, fraction, exponent⟩ := a
    obtain ⟨rfl, rfl⟩ := hplain
    cases negative with
    | false =>
        have hword : Numeral.digitsValue 0 ds ≤ maxWord64 := hword
        rw [ofLiteral_integer false hword] at h
        cases h
        exact ⟨⟨rfl, rfl, rfl⟩, rfl, hword⟩
    | true =>
        have hbits : 0 < Numeral.digitsValue 0 ds ∧
            Numeral.digitsValue 0 ds ≤ 2 ^ 63 := hword
        have hread : Number.ofInteger true (Numeral.digitsValue 0 ds)
            = some (.negative _) := if_pos hbits
        rw [ofLiteral_integer true (Nat.le_trans hbits.2 (by decide)),
          hread] at h
        cases h
  · obtain ⟨negative, ds, fraction, exponent⟩ := a
    rintro ⟨⟨rfl, rfl, rfl⟩, rfl, hword⟩
    rw [ofLiteral_integer false hword]
    rfl

/-- A binary number is not spelled as an integer. -/
theorem IsInteger.spell_float_ne (ha : a.IsInteger) (x : Binary64) :
    (Number.float x).spell ≠ a := by
  intro hspell
  refine Number.integer_ne_floatLiteral a.negative a.whole x ?_
  rw [← ha.noFraction, ← ha.noExponent]
  exact hspell.symm

/-- What an integer is read as is spelled as it stands if and only if it has
    64 bits. -/
theorem IsInteger.spell_eq_iff (ha : a.IsInteger)
    (hn : Number.ofLiteral a = some n) : n.spell = a ↔ a.InWord := by
  constructor
  · intro hspell
    by_contra h
    obtain ⟨x, rfl⟩ := ha.float_of_not_inWord h hn
    exact ha.spell_float_ne x hspell
  · intro h
    obtain ⟨m, hm, hspell⟩ := ha.ofLiteral_of_inWord h
    rw [hn] at hm
    cases hm
    exact hspell

/-- What is read as an integer are the integers of 64 bits. -/
theorem WellSpelled.isInteger_iff (ha : a.WellSpelled)
    (hn : Number.ofLiteral a = some n) :
    n.isInteger = true ↔ a.IsInteger ∧ a.InWord := by
  constructor
  · intro h
    have hfloat : ¬∃ x, n = .float x := by
      rintro ⟨x, rfl⟩
      exact nomatch h
    have hplain : a.fraction = none ∧ a.exponent = none := by
      by_contra hnot
      exact hfloat (float_of_ofLiteral hnot hn)
    have hinteger : a.IsInteger := ⟨ha, hplain.1, hplain.2⟩
    refine ⟨hinteger, ?_⟩
    by_contra hword
    exact hfloat (hinteger.float_of_not_inWord hword hn)
  · rintro ⟨hinteger, hword⟩
    have hspell := (hinteger.spell_eq_iff hn).mpr hword
    cases n with
    | natural | negative => rfl
    | float x => exact absurd hspell (hinteger.spell_float_ne x)

/-- Two integers are read as the same number if they are the same, or if both
    are read as the same binary number. -/
theorem IsInteger.ofLiteral_eq_iff (ha : a.IsInteger) (hb : b.IsInteger)
    (hn : Number.ofLiteral a = some n) (hm : Number.ofLiteral b = some m) :
    n = m ↔ a = b ∨
      (¬a.InWord ∧ ¬b.InWord ∧ ∃ x, n = .float x ∧ m = .float x) := by
  constructor
  · rintro rfl
    by_cases hA : a.InWord
    · have hspell := (ha.spell_eq_iff hn).mpr hA
      by_cases hB : b.InWord
      · exact .inl (hspell.symm.trans ((hb.spell_eq_iff hm).mpr hB))
      · obtain ⟨x, rfl⟩ := hb.float_of_not_inWord hB hm
        exact absurd hspell (ha.spell_float_ne x)
    · obtain ⟨x, rfl⟩ := ha.float_of_not_inWord hA hn
      refine .inr ⟨hA, fun hB => ?_, x, rfl, rfl⟩
      exact hb.spell_float_ne x ((hb.spell_eq_iff hm).mpr hB)
  · rintro (rfl | ⟨-, -, x, rfl, rfl⟩)
    · exact Option.some.inj (hn.symm.trans hm)
    · rfl

end NumberLiteral

end RiskExchange.Json
