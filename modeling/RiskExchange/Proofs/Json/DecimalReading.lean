import RiskExchange.Proofs.Json.NumberText
import RiskExchange.Proofs.Json.Respelling
import RiskExchange.Proofs.Number.Literals
import RiskExchange.Proofs.Number.ReadingBack

/-! # Decimal reading — numerals that are read as decimals

    A numeral of a document is a literal of the decimal that it stands for
    (`spells_decimal`), so it may be read with a single rounding. What a stored
    number is written as is read like that as the number (`finite?_text_float`),
    and two stored numbers are never written alike (`text_inj`). -/

namespace RiskExchange.Json

open RiskExchange.Number

namespace NumberLiteral

variable {l : NumberLiteral}

/-- The decimal that a numeral stands for. -/
def decimal (l : NumberLiteral) : Decimal :=
  ⟨l.negative, Numeral.digitsValue 0 (l.whole ++ l.places),
    l.exponentValue - l.places.length⟩

theorem magnitude_decimal (l : NumberLiteral) :
    l.decimal.magnitude = l.worth := rfl

theorem value_decimal (l : NumberLiteral) : l.decimal.value = l.exact := rfl

private theorem spellsSign_signChars (l : NumberLiteral) :
    Numeral.SpellsSign l.negative l.signChars := by
  rw [signChars]
  cases l.negative with
  | true => exact .minus
  | false => exact .none

theorem WellSpelled.places (h : l.WellSpelled) : AreDigits l.places := by
  rw [NumberLiteral.places]
  cases hf : l.fraction with
  | none => exact areDigits_nil
  | some fs => exact (h.fraction fs hf).2

theorem WellSpelled.ne_nil (h : l.WellSpelled) : l.whole ≠ [] := by
  rcases h.front with h0 | ⟨d, rest, hw, -⟩
  · rw [h0]
    exact List.cons_ne_nil 0 []
  · rw [hw]
    exact List.cons_ne_nil d rest

private theorem spellsDigits (l : NumberLiteral) : Numeral.SpellsDigits l.whole
    l.places (digitChars l.whole ++ l.fractionChars) := by
  rw [places, fractionChars]
  cases l.fraction with
  | none =>
      rw [List.append_nil]
      exact .whole l.whole
  | some fs => exact .pointed l.whole fs

private theorem spellsExponent (h : l.WellSpelled) :
    Numeral.SpellsExponent l.exponentValue l.exponentChars := by
  rw [exponentValue, exponentChars]
  cases he : l.exponent with
  | none => exact .none
  | some exponent =>
      obtain ⟨down, ds⟩ := exponent
      obtain ⟨hne, hds⟩ := h.exponent down ds he
      cases down with
      | true => exact .marked (.inl rfl) .minus hds hne
      | false => exact .marked (.inl rfl) .plus hds hne

/-- A numeral is a literal of the decimal that it stands for. -/
theorem spells_decimal (h : l.WellSpelled) :
    Numeral.Spells l.decimal l.chars := by
  have hunsigned : Numeral.SpellsUnsigned l.negative _ _ :=
    .intro h.digits h.places (List.append_ne_nil_of_left_ne_nil h.ne_nil _)
      (spellsDigits l) (spellsExponent h)
  have hspells := Numeral.Spells.intro (spellsSign_signChars l) hunsigned
  rw [← List.append_assoc, ← List.append_assoc] at hspells
  exact hspells

/-- A numeral is read as its decimal, rounded once. -/
theorem finite?_chars (h : l.WellSpelled) :
    Numeral.finite? l.chars = l.decimal.toBinary64 := by
  rw [Numeral.finite?, Numeral.read?_eq_finite_iff.mpr (spells_decimal h)]

end NumberLiteral

namespace Number

variable {n m : Number} {x y : Binary64}

/-- The literal that a stored number is written as is read as the number. -/
theorem toBinary64_floatLiteral (hx : x.Canonical) :
    (floatLiteral x).decimal.toBinary64 = some x := by
  by_cases hm : x.significand = 0
  · have h0 : x.isZero = true := beq_iff_eq.mpr hm
    rw [floatLiteral, if_pos h0, hx.eq_zero h0]
    rfl
  · refine Decimal.toBinary64_of_holds hx hm (parts_floatLiteral x).1 ?_
    rw [NumberLiteral.magnitude_decimal, worth_floatLiteral hm]
    exact (Binary64.shortest_holds hx hm).2

/-- What a stored number is written as is read as the number. -/
theorem finite?_text_float (hx : x.Canonical) :
    Numeral.finite? (text (.float x)).toList = some x := by
  rw [← chars_spell,
    NumberLiteral.finite?_chars (wellSpelled_spell (.float x))]
  exact toBinary64_floatLiteral hx

/-- An integer is not written like a binary number. -/
theorem integer_ne_floatLiteral (negative : Bool) (ds : List Nat)
    (x : Binary64) : ⟨negative, ds, none, none⟩ ≠ floatLiteral x := by
  intro h
  obtain ⟨-, hparts⟩ := parts_floatLiteral x
  rw [← h] at hparts
  exact hparts.elim (fun hf => hf rfl) (fun he => he rfl)

private theorem decimalDigits_inj {n m : Nat}
    (h : decimalDigits n = decimalDigits m) : n = m := by
  rw [← digitsValue_decimalDigits n, h, digitsValue_decimalDigits]

/-- Two stored numbers are not written alike. -/
theorem text_inj (hn : n.Stored) (hm : m.Stored) (h : n.text = m.text) :
    n = m := by
  have hspell : n.spell = m.spell := by
    refine NumberLiteral.chars_inj (wellSpelled_spell n)
      (wellSpelled_spell m) ?_
    rw [chars_spell, chars_spell, h]
  cases n with
  | natural n =>
      cases m with
      | natural m =>
          have hdigits := congrArg NumberLiteral.whole hspell
          rw [decimalDigits_inj hdigits]
      | negative m => exact nomatch congrArg NumberLiteral.negative hspell
      | float y => exact absurd hspell (integer_ne_floatLiteral _ _ y)
  | negative n =>
      cases m with
      | natural m => exact nomatch congrArg NumberLiteral.negative hspell
      | negative m =>
          have hdigits := congrArg NumberLiteral.whole hspell
          rw [decimalDigits_inj hdigits]
      | float y => exact absurd hspell (integer_ne_floatLiteral _ _ y)
  | float x =>
      cases m with
      | natural m => exact absurd hspell.symm (integer_ne_floatLiteral _ _ x)
      | negative m => exact absurd hspell.symm (integer_ne_floatLiteral _ _ x)
      | float y =>
          have hx := toBinary64_floatLiteral hn
          have hy := toBinary64_floatLiteral hm
          change floatLiteral x = floatLiteral y at hspell
          rw [hspell, hy] at hx
          cases hx
          rfl

end Number
end RiskExchange.Json
