import RiskExchange.Model.Probability
import RiskExchange.Proofs.Number.Decimals
import RiskExchange.Proofs.Number.Literals

/-! # Probability text — the parts of a probability as it is written

    A probability is written in one shape, with seven digits (`Parts`), and
    whatever is written in this shape is a literal of the number that its parts
    denote (`Parts.spells_chars`). The digits determine the coefficient and are
    determined by it (`Parts.WellFormed.eq_parts`), so a binary number is
    written with its significant digits (`scientific_eq_text`). A text of this
    shape may have a minus in front of a zero exponent, which its parts do not
    (`Spelling.text_toParts`). -/

namespace RiskExchange.Model.Probability

open RiskExchange.Number

/-! ## The text -/

/-- The digits of an exponent: two of them, or as many as it has. -/
def exponentDigits (n : Nat) : List Nat :=
  if n < 10 then [0, n] else decimalDigits n

/-- The digits of a number in scientific notation, and its signs; `down` tells
    that a minus is in front of the exponent. -/
structure Spelling where
  negative : Bool
  first : Nat
  places : List Nat
  down : Bool
  exponent : List Nat

namespace Spelling

/-- A minus if it is negative, the first digit, a point, the places, the mark,
    and the exponent behind its sign. -/
def chars (p : Spelling) : List Char :=
  (if p.negative then ['-'] else []) ++ digitChars [p.first]
    ++ '.' :: digitChars p.places
    ++ 'E' :: (if p.down then '-' else '+') :: digitChars p.exponent

/-- The digits and signs written out. -/
def text (p : Spelling) : String := String.ofList p.chars

/-- Seven digits, of which the first is not zero, and an exponent of two digits,
    or of more if the first of them is not zero. -/
structure WellFormed (p : Spelling) : Prop where
  digits : AreDigits (p.first :: p.places)
  length : p.places.length = 6
  front : p.first ≠ 0
  exponentDigits : AreDigits p.exponent
  exponentLength : p.exponent.length = 2 ∨
    (2 < p.exponent.length ∧ p.exponent.head? ≠ some 0)

end Spelling

/-- The parts of a probability as it is written. -/
structure Parts where
  negative : Bool
  first : Nat
  places : List Nat
  exponent : Int

namespace Parts

/-- A minus if it is negative, the first digit, a point, the places, the mark,
    and the exponent with its sign, which is a plus for zero. -/
def chars (p : Parts) : List Char :=
  (if p.negative then ['-'] else []) ++ digitChars [p.first]
    ++ '.' :: digitChars p.places
    ++ 'E' :: (if p.exponent < 0 then '-' else '+')
      :: digitChars (exponentDigits p.exponent.natAbs)

/-- The parts written out. -/
def text (p : Parts) : String := String.ofList p.chars

/-- Seven digits, and the first is zero only if all are. -/
structure WellFormed (p : Parts) : Prop where
  digits : AreDigits (p.first :: p.places)
  length : p.places.length = 6
  front : p.first = 0 → ∀ d ∈ p.places, d = 0

/-- The seven digits as a number. -/
def coefficient (p : Parts) : Nat :=
  Numeral.digitsValue 0 (p.first :: p.places)

/-- The decimal that is written. -/
def decimal (p : Parts) : Decimal :=
  ⟨p.negative, p.coefficient, p.exponent - 6⟩

/-- The number that is written. -/
def value (p : Parts) : ℚ := p.decimal.value

end Parts

theorem areDigits_exponentDigits (n : Nat) : AreDigits (exponentDigits n) := by
  rw [exponentDigits]
  split
  next hn => exact (areDigits_nil.cons hn).cons (by decide)
  next => exact areDigits_decimalDigits n

theorem digitsValue_exponentDigits (n : Nat) :
    Numeral.digitsValue 0 (exponentDigits n) = n := by
  rw [exponentDigits]
  split
  next hn => exact Nat.zero_add n
  next => exact digitsValue_decimalDigits n

theorem exponentDigits_ne_nil (n : Nat) : exponentDigits n ≠ [] := by
  rw [exponentDigits]
  split
  next => exact List.cons_ne_nil _ _
  next => exact decimalDigits_ne_nil n

private theorem spellsExponent {ds : List Nat} (hds : AreDigits ds)
    (hne : ds ≠ []) (down : Bool) :
    Numeral.SpellsExponent
      (if down then -(Numeral.digitsValue 0 ds : Int)
        else Numeral.digitsValue 0 ds)
      ('E' :: (if down then '-' else '+') :: digitChars ds) := by
  cases down with
  | true => exact .marked (.inr rfl) .minus hds hne
  | false => exact .marked (.inr rfl) .plus hds hne

/-- The text is a literal of the number that its digits and signs denote. -/
theorem Spelling.spells_chars {p : Spelling}
    (hdigits : AreDigits (p.first :: p.places)) (hds : AreDigits p.exponent)
    (hne : p.exponent ≠ []) :
    Numeral.Spells
      ⟨p.negative, Numeral.digitsValue 0 (p.first :: p.places),
        (if p.down then -(Numeral.digitsValue 0 p.exponent : Int)
          else Numeral.digitsValue 0 p.exponent) - p.places.length⟩
      p.chars := by
  have hfirst : AreDigits [p.first] :=
    areDigits_nil.cons (hdigits _ (List.mem_cons_self ..))
  have hunsigned : Numeral.SpellsUnsigned p.negative _ _ :=
    .intro hfirst hdigits.tail (List.cons_ne_nil _ _) (.pointed _ _)
      (spellsExponent hds hne p.down)
  have hsign : Numeral.SpellsSign p.negative
      (if p.negative then ['-'] else []) := by
    cases p.negative with
    | true => exact .minus
    | false => exact .none
  have hspells := Numeral.Spells.intro hsign hunsigned
  rw [← List.append_assoc, ← List.append_assoc] at hspells
  exact hspells

namespace Parts

variable {p : Parts}

/-- The digits and signs that the parts are written with. -/
def spelling (p : Parts) : Spelling :=
  ⟨p.negative, p.first, p.places, p.exponent < 0,
    exponentDigits p.exponent.natAbs⟩

theorem chars_spelling (p : Parts) : p.spelling.chars = p.chars := by
  by_cases he : p.exponent < 0 <;> simp [Spelling.chars, spelling, chars, he]

/-- The text is a literal of the number that is written. -/
theorem spells_chars (h : p.WellFormed) :
    Numeral.Spells p.decimal p.chars := by
  have hspells := Spelling.spells_chars (p := p.spelling) h.digits
    (areDigits_exponentDigits _) (exponentDigits_ne_nil _)
  have hexponent : (if p.exponent < 0 then -(p.exponent.natAbs : Int)
      else p.exponent.natAbs) = p.exponent := by
    omega
  rw [chars_spelling] at hspells
  simp only [spelling, digitsValue_exponentDigits, h.length,
    decide_eq_true_eq, hexponent] at hspells
  exact hspells

theorem trim_text (h : p.WellFormed) : Text.trim p.text.toList = p.chars := by
  rw [text, String.toList_ofList]
  exact (spells_chars h).trim_eq

end Parts

/-! ## The parts of a coefficient -/

/-- The digits of a number with zeros in front. -/
def padded (width n : Nat) : List Nat :=
  List.replicate (width - (decimalDigits n).length) 0 ++ decimalDigits n

theorem digitChars_padded (width n : Nat) :
    digitChars (padded width n) = Binary64.paddedDigits width n := by
  rw [padded, digitChars, List.map_append, List.map_replicate,
    ← digitChars, digitChars_decimalDigits, length_decimalDigits]
  rfl

theorem padded_two (n : Nat) : padded 2 n = exponentDigits n := by
  rw [padded, exponentDigits]
  split
  next hn =>
    have hdigits : ∀ n < 10, decimalDigits n = [n] := by decide
    rw [hdigits n hn]
    rfl
  next hn =>
    -- with two digits or more, no zero is put in front
    have hlength : 2 ≤ (decimalDigits n).length := by
      by_contra hlt
      have hpow := lt_pow_length n
      have hone : (decimalDigits n).length = 1 := by
        have := length_decimalDigits_pos n
        omega
      rw [hone] at hpow
      exact hn hpow
    rw [Nat.sub_eq_zero_of_le hlength]
    rfl

/-- The parts of a number with a coefficient of seven digits. -/
def parts (negative : Bool) (k : Nat) (e : Int) : Parts :=
  ⟨negative, (padded 7 k).headD 0, (padded 7 k).tail, e⟩

section

variable {k : Nat}

theorem length_padded (hk : k < 10 ^ 7) : (padded 7 k).length = 7 := by
  have hle := length_decimalDigits_le (by decide) hk
  rw [padded, List.length_append, List.length_replicate]
  omega

theorem padded_eq_cons (hk : k < 10 ^ 7) (negative : Bool) (e : Int) :
    (parts negative k e).first :: (parts negative k e).places
      = padded 7 k := by
  have hlength := length_padded hk
  rw [parts]
  cases hp : padded 7 k with
  | nil =>
      rw [hp] at hlength
      exact nomatch hlength
  | cons d ds => rfl

theorem coefficient_parts (hk : k < 10 ^ 7) (negative : Bool) (e : Int) :
    (parts negative k e).coefficient = k := by
  rw [Parts.coefficient, padded_eq_cons hk, padded, digitsValue_zeros,
    digitsValue_decimalDigits]

theorem padded_eq_decimalDigits (hlow : 10 ^ 6 ≤ k) (hk : k < 10 ^ 7) :
    padded 7 k = decimalDigits k := by
  have hpow := lt_pow_length k
  have hlength : 7 ≤ (decimalDigits k).length := by
    have hlt : 10 ^ 6 < 10 ^ (decimalDigits k).length := by omega
    exact (Nat.pow_lt_pow_iff_right (by decide)).mp hlt
  rw [padded, Nat.sub_eq_zero_of_le hlength]
  rfl

theorem wellFormed_parts (h : k = 0 ∨ 10 ^ 6 ≤ k) (hk : k < 10 ^ 7)
    (negative : Bool) (e : Int) : (parts negative k e).WellFormed where
  digits := by
    rw [padded_eq_cons hk]
    exact (areDigits_replicate _).append (areDigits_decimalDigits k)
  length := by
    have hlength := length_padded hk
    rw [← padded_eq_cons hk negative e] at hlength
    exact Nat.succ.inj hlength
  front := by
    have hcons := padded_eq_cons hk negative e
    rcases h with rfl | hlow
    · intro hfirst d hd
      have hmem : d ∈ padded 7 0 := hcons ▸ List.mem_cons_of_mem _ hd
      have hall : ∀ d ∈ padded 7 0, d = 0 := by decide
      exact hall d hmem
    · intro hfirst
      rw [padded_eq_decimalDigits hlow hk] at hcons
      exact absurd hfirst (head_decimalDigits (by omega) hcons.symm)

/-- Well-formed parts are those of their coefficient. -/
theorem Parts.WellFormed.eq_parts {p : Parts} (h : p.WellFormed) :
    p.coefficient < 10 ^ 7 ∧
      p = parts p.negative p.coefficient p.exponent := by
  have hlength : (p.first :: p.places).length = 7 :=
    congrArg Nat.succ h.length
  have hk : p.coefficient < 10 ^ 7 := by
    have hlt := digitsValue_lt h.digits
    rw [hlength] at hlt
    exact hlt
  refine ⟨hk, ?_⟩
  have hcons := padded_eq_cons hk p.negative p.exponent
  have hvalue := coefficient_parts hk p.negative p.exponent
  rw [coefficient, hcons] at hvalue
  have hpadded : AreDigits (padded 7 p.coefficient) :=
    (areDigits_replicate _).append (areDigits_decimalDigits _)
  obtain ⟨-, hsame⟩ := digits_unique h.digits hpadded
    (hlength.trans (length_padded hk).symm) hvalue.symm
  rw [parts, ← hsame]
  rfl

end

/-- A number is written with its significant digits. -/
theorem scientific_eq_text (x : Binary64)
    (hk : (x.significant 6).1 < 10 ^ 7) :
    x.scientific format
      = (parts x.negative (x.significant 6).1 (x.significant 6).2).text := by
  have hcons := padded_eq_cons hk x.negative (x.significant 6).2
  have hchars : Binary64.paddedDigits 7 (x.significant 6).1
      = Nat.digitChar (parts x.negative (x.significant 6).1
          (x.significant 6).2).first
        :: digitChars (parts x.negative (x.significant 6).1
          (x.significant 6).2).places := by
    rw [← digitChars_padded, ← hcons]
    rfl
  change String.ofList ((if x.negative then ['-'] else [])
      ++ (Binary64.paddedDigits 7 (x.significant 6).1).take 1
      ++ '.' :: (Binary64.paddedDigits 7 (x.significant 6).1).drop 1
      ++ 'E' :: (if (x.significant 6).2 < 0 then '-' else '+')
        :: Binary64.paddedDigits 2 (x.significant 6).2.natAbs) = _
  rw [hchars, ← digitChars_padded 2, padded_two]
  rfl

/-! ## Other spellings -/

/-- The digits of an exponent are those of its value. -/
theorem exponentDigits_digitsValue {ds : List Nat} (hds : AreDigits ds)
    (hlength : ds.length = 2 ∨ (2 < ds.length ∧ ds.head? ≠ some 0)) :
    exponentDigits (Numeral.digitsValue 0 ds) = ds := by
  obtain ⟨d, e, rest, rfl⟩ : ∃ d e rest, ds = d :: e :: rest := by
    match ds with
    | [] | [_] => simp at hlength
    | d :: e :: rest => exact ⟨d, e, rest, rfl⟩
  rcases Nat.eq_zero_or_pos d with rfl | hd
  · -- a zero in front is one of two digits
    obtain rfl : rest = [] := by simpa using hlength
    have he : e < 10 := hds e (by simp)
    simp [exponentDigits, Numeral.digitsValue, he]
  · have hvalue := mul_pow_le_digitsValue d (e :: rest)
    have hten : 10 ≤ 10 ^ (e :: rest).length := Nat.le_self_pow (by simp) 10
    have hcons : Numeral.digitsValue 0 (d :: e :: rest)
        = Numeral.digitsValue d (e :: rest) :=
      congrArg (Numeral.digitsValue · (e :: rest)) (Nat.zero_add d)
    have hge : ¬ Numeral.digitsValue 0 (d :: e :: rest) < 10 := by
      have hle : 1 * 10 ≤ d * 10 ^ (e :: rest).length :=
        Nat.mul_le_mul hd hten
      omega
    rw [exponentDigits, if_neg hge]
    exact decimalDigits_digitsValue hds
      (.inr ⟨d, e :: rest, rfl, Nat.ne_of_gt hd⟩)

namespace Spelling

variable {p : Spelling}

/-- The parts of the number that the digits and signs denote. -/
def toParts (p : Spelling) : Parts :=
  ⟨p.negative, p.first, p.places,
    if p.down then -(Numeral.digitsValue 0 p.exponent : Int)
      else Numeral.digitsValue 0 p.exponent⟩

theorem WellFormed.toParts (h : p.WellFormed) : p.toParts.WellFormed where
  digits := h.digits
  length := h.length
  front hfirst := absurd hfirst h.front

theorem WellFormed.spells (h : p.WellFormed) :
    Numeral.Spells p.toParts.decimal (Text.trim p.text.toList) := by
  have hne : p.exponent ≠ [] := by
    rintro hnil
    simpa [hnil] using h.exponentLength
  have hspells := spells_chars h.digits h.exponentDigits hne
  rw [h.length] at hspells
  rw [text, String.toList_ofList, hspells.trim_eq]
  exact hspells

/-- The number is written with the same digits and signs, but for a minus in
    front of a zero exponent. -/
theorem WellFormed.text_toParts (h : p.WellFormed) : p.toParts.text
    = { p with down := p.down && p.exponent ≠ [0, 0] }.text := by
  have hexponent := exponentDigits_digitsValue h.exponentDigits h.exponentLength
  have hzero : Numeral.digitsValue 0 p.exponent = 0 ↔ p.exponent = [0, 0] := by
    constructor
    · intro hvalue
      rw [hvalue] at hexponent
      exact hexponent.symm
    · intro hzeros
      rw [hzeros]
      rfl
  refine congrArg String.ofList ?_
  rw [← Parts.chars_spelling]
  refine congrArg chars ?_
  cases hdown : p.down with
  | true =>
      simp [Parts.spelling, Spelling.toParts, hdown, hexponent, ← hzero,
        Nat.pos_iff_ne_zero]
  | false => simp [Parts.spelling, Spelling.toParts, hdown, hexponent]

end Spelling

end RiskExchange.Model.Probability
