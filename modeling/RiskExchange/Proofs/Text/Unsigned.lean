import RiskExchange.Proofs.Number.Digits

/-! # Unsigned numerals — which texts are read, and as what

    A numeral is an optional plus and at least one digit, and zeros may stand
    in front. The reader stops as soon as it is beyond its bound. More digits
    only make a value greater, so what it has read of a numeral is beyond the
    bound at some point exactly if the whole numeral is, and it reads the
    numerals within the bound (`readUnsigned_eq_ok_iff`). -/

namespace RiskExchange.Text

open RiskExchange.Number
open Numeral (digitsValue)

variable {bound n v : Nat} {s : List Char}

/-- The text is a numeral of a number: decimal digits, and a plus at most in
    front of them. -/
inductive IsUnsigned : Nat → List Char → Prop where
  | digits {ds : List Nat} (hds : AreDigits ds) (hne : ds ≠ []) :
      IsUnsigned (digitsValue 0 ds) (digitChars ds)
  | plus {ds : List Nat} (hds : AreDigits ds) (hne : ds ≠ []) :
      IsUnsigned (digitsValue 0 ds) ('+' :: digitChars ds)

/-- A number in decimal is a numeral of it. -/
theorem isUnsigned_toDigits (n : Nat) : IsUnsigned n (Nat.toDigits 10 n) := by
  have h := IsUnsigned.digits (areDigits_decimalDigits n)
    (decimalDigits_ne_nil n)
  rw [digitsValue_decimalDigits, digitChars_decimalDigits] at h
  exact h

/-- The text is the number in decimal: digits, of which the first is a zero
    only if it is the only one. -/
inductive IsDecimal : Nat → List Char → Prop where
  | intro {ds : List Nat} (hds : AreDigits ds)
      (hfront : ds = [0] ∨ ∃ d rest, ds = d :: rest ∧ d ≠ 0) :
      IsDecimal (digitsValue 0 ds) (digitChars ds)

/-- A number has one decimal. -/
theorem isDecimal_iff : IsDecimal n s ↔ s = Nat.toDigits 10 n := by
  constructor
  · rintro ⟨hds, hfront⟩
    rw [← digitChars_decimalDigits, decimalDigits_digitsValue hds hfront]
  · rintro rfl
    have hfront : decimalDigits n = [0] ∨
        ∃ d rest, decimalDigits n = d :: rest ∧ d ≠ 0 := by
      rcases Nat.eq_zero_or_pos n with rfl | hn
      · exact .inl decimalDigits_zero
      · obtain ⟨d, rest, hcons⟩ :=
          List.exists_cons_of_ne_nil (decimalDigits_ne_nil n)
        exact .inr ⟨d, rest, hcons, head_decimalDigits (Nat.ne_of_gt hn) hcons⟩
    have h := IsDecimal.intro (areDigits_decimalDigits n) hfront
    rw [digitsValue_decimalDigits, digitChars_decimalDigits] at h
    exact h

theorem plus_not_mem_digitChars {ds : List Nat} (hds : AreDigits ds) :
    '+' ∉ digitChars ds := by
  intro hmem
  obtain ⟨d, hd, heq⟩ := List.mem_map.mp hmem
  have hread := digit?_digitChar (hds d hd)
  rw [heq] at hread
  exact nomatch hread

/-! ## Digits -/

/-- Digits are read on top of a value within the bound exactly if the value of
    them all is within the bound. -/
theorem readDigits_eq_ok_iff (hv : v ≤ bound) : readDigits bound v s = .ok n ↔
    ∃ ds, AreDigits ds ∧ s = digitChars ds ∧ digitsValue v ds = n ∧
      n ≤ bound := by
  induction s generalizing v with
  | nil =>
      constructor
      · intro h
        cases h
        exact ⟨[], areDigits_nil, rfl, rfl, hv⟩
      · rintro ⟨ds, -, hs, rfl, -⟩
        cases List.map_eq_nil_iff.mp hs.symm
        rfl
  | cons c rest ih =>
      rw [readDigits]
      constructor
      · intro h
        split at h
        · exact nomatch h
        next d hd =>
          obtain ⟨hlt, rfl⟩ := digit?_eq_some hd
          split at h
          next hfit =>
            obtain ⟨ds, hds, rfl, hvalue, hn⟩ := (ih hfit).mp h
            exact ⟨d :: ds, hds.cons hlt, rfl, hvalue, hn⟩
          · exact nomatch h
      · rintro ⟨ds, hds, hs, hvalue, hn⟩
        cases ds with
        | nil => exact nomatch hs
        | cons d ds =>
            obtain ⟨rfl, rfl⟩ := List.cons.inj hs
            rw [digit?_digitChar (hds d (List.mem_cons_self ..))]
            have hfit : v * 10 + d ≤ bound :=
              calc v * 10 + d
                  ≤ (v * 10 + d) * 10 ^ ds.length :=
                    Nat.le_mul_of_pos_right _ (Nat.pow_pos (by decide))
                _ ≤ digitsValue v (d :: ds) :=
                    mul_pow_le_digitsValue (v * 10 + d) ds
                _ ≤ bound := hvalue ▸ hn
            dsimp only
            rw [if_pos hfit]
            exact (ih hfit).mpr ⟨ds, hds.tail, rfl, hvalue, hn⟩

/-! ## Numerals -/

/-- The numerals that are read are those within the bound, and they are read as
    the numbers that they spell. -/
theorem readUnsigned_eq_ok_iff :
    readUnsigned bound s = .ok n ↔ IsUnsigned n s ∧ n ≤ bound := by
  have hread {s : List Char} : readDigits bound 0 s = .ok n ↔
      ∃ ds, AreDigits ds ∧ s = digitChars ds ∧ digitsValue 0 ds = n ∧
        n ≤ bound := readDigits_eq_ok_iff (Nat.zero_le bound)
  constructor
  · intro h
    unfold readUnsigned at h
    split at h
    · exact nomatch h
    · exact nomatch h
    next rest hne =>
      obtain ⟨ds, hds, rfl, rfl, hn⟩ := hread.mp h
      exact ⟨.plus hds fun hnil => hne (hnil ▸ rfl), hn⟩
    next hne _ _ =>
      obtain ⟨ds, hds, rfl, rfl, hn⟩ := hread.mp h
      exact ⟨.digits hds fun hnil => hne (hnil ▸ rfl), hn⟩
  · rintro ⟨h, hn⟩
    cases h with
    | @digits ds hds hne =>
        have hplus := plus_not_mem_digitChars hds
        unfold readUnsigned
        split
        next heq => exact absurd (List.map_eq_nil_iff.mp heq) hne
        next heq => exact absurd (heq ▸ List.mem_cons_self ..) hplus
        next heq => exact absurd (heq ▸ List.mem_cons_self ..) hplus
        next => exact hread.mpr ⟨ds, hds, rfl, rfl, hn⟩
    | @plus ds hds hne =>
        have hne' : digitChars ds ≠ [] :=
          fun heq => hne (List.map_eq_nil_iff.mp heq)
        unfold readUnsigned
        split
        next heq => exact nomatch heq
        next heq => exact absurd (List.cons.inj heq).2 hne'
        next heq =>
          rw [← (List.cons.inj heq).2]
          exact hread.mpr ⟨ds, hds, rfl, rfl, hn⟩
        next hno => exact (hno _ rfl).elim

/-- The digits of a number within the bound are read as the number. -/
theorem readUnsigned_toDigits (h : n ≤ bound) :
    readUnsigned bound (Nat.toDigits 10 n) = .ok n :=
  readUnsigned_eq_ok_iff.mpr ⟨isUnsigned_toDigits n, h⟩

end RiskExchange.Text
