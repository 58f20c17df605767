import Mathlib.Tactic.SplitIfs
import RiskExchange.CutSet.TermCode
import RiskExchange.Proofs.Text.Unsigned

/-! # Term codes — which texts are codes

    A code is a letter and an unsigned numeral of 17 bits (`parse_eq_ok_iff`).
    A text without one of the two letters fails for its letter, and any other
    text that is no code for its payload (`parse_eq_error_iff`). A code is
    written without a plus and without zeros in front, and it is read again as
    itself (`parse_text`). -/

namespace RiskExchange.CutSet

open RiskExchange.Text (IsUnsigned isUnsigned_toDigits readUnsigned_eq_ok_iff)

/-! ## Letters -/

theorem TermClass.ofLetter?_eq_some_iff {c : Char} {k : TermClass} :
    ofLetter? c = some k ↔ c = k.letter := by
  constructor
  · intro h
    rw [ofLetter?] at h
    split_ifs at h with hf hs
    · cases h
      exact hf
    · cases h
      exact hs
  · rintro rfl
    cases k <;> rfl

theorem TermClass.ofLetter?_eq_none_iff {c : Char} :
    ofLetter? c = none ↔ c ≠ 'f' ∧ c ≠ 's' := by
  rw [ofLetter?]
  split_ifs with hf hs
  · exact ⟨fun h => (nomatch h), fun h => absurd hf h.1⟩
  · exact ⟨fun h => (nomatch h), fun h => absurd hs h.2⟩
  · exact ⟨fun _ => ⟨hf, hs⟩, fun _ => rfl⟩

namespace TermCode

variable {s : String} {c : TermCode} {e : ParseError}

/-! ## Payloads -/

/-- The payloads are the numerals of 17 bits. -/
theorem readPayload?_eq_some_iff {s : List Char} {p : Fin payloadCount} :
    readPayload? s = some p ↔ IsUnsigned p s := by
  have hword : payloadCount ≤ Text.maxWord32 := by decide
  rw [readPayload?]
  constructor
  · intro h
    split at h
    next n hn =>
      split at h
      · cases h
        exact (readUnsigned_eq_ok_iff.mp hn).1
      · exact nomatch h
    · exact nomatch h
  · intro h
    rw [readUnsigned_eq_ok_iff.mpr ⟨h, by omega⟩]
    exact dif_pos p.isLt

/-! ## Codes -/

/-- The text is a letter and an unsigned numeral: the class of a code and its
    payload. -/
inductive SpellsCode : TermClass → Nat → List Char → Prop where
  | basicEvent {n : Nat} {s : List Char} (h : IsUnsigned n s) :
      SpellsCode .basicEvent n ('f' :: s)
  | structural {n : Nat} {s : List Char} (h : IsUnsigned n s) :
      SpellsCode .structural n ('s' :: s)

theorem spellsCode_iff {k : TermClass} {n : Nat} {s : List Char} :
    SpellsCode k n s ↔ ∃ rest, s = k.letter :: rest ∧ IsUnsigned n rest := by
  constructor
  · rintro (h | h) <;> exact ⟨_, rfl, h⟩
  · rintro ⟨rest, rfl, h⟩
    cases k with
    | basicEvent => exact .basicEvent h
    | structural => exact .structural h

/-- The codes that are read from a text are those that it spells. -/
theorem parse_eq_ok_iff :
    parse s = .ok c ↔ SpellsCode c.kind c.payload s.toList := by
  rw [spellsCode_iff, parse]
  constructor
  · intro h
    split at h
    · cases h
    next a rest hs =>
      split at h
      · cases h
      next k hk =>
        split at h
        · cases h
        next p hp =>
          cases h
          rw [TermClass.ofLetter?_eq_some_iff.mp hk] at hs
          exact ⟨rest, hs, readPayload?_eq_some_iff.mp hp⟩
  · rintro ⟨rest, hs, h⟩
    rw [hs]
    dsimp only
    rw [TermClass.ofLetter?_eq_some_iff.mpr rfl]
    dsimp only
    rw [readPayload?_eq_some_iff.mpr h]

/-- The texts that are read are the codes of payloads within 17 bits. -/
theorem exists_parse_ok_iff : (∃ c, parse s = .ok c) ↔
    ∃ k n, n ≤ 131071 ∧ SpellsCode k n s.toList := by
  constructor
  · rintro ⟨c, hc⟩
    exact ⟨c.kind, c.payload, Nat.le_of_lt_succ c.payload.isLt,
      parse_eq_ok_iff.mp hc⟩
  · rintro ⟨k, n, hn, h⟩
    exact ⟨⟨k, n, Nat.lt_succ_of_le hn⟩, parse_eq_ok_iff.mpr h⟩

private theorem parse_of_no_letter
    (h : s.toList.head? ≠ some 'f' ∧ s.toList.head? ≠ some 's') :
    parse s = .error (.letter s) := by
  rw [parse]
  split
  · rfl
  next c rest hs =>
    rw [hs] at h
    have hletter : TermClass.ofLetter? c = none :=
      TermClass.ofLetter?_eq_none_iff.mpr
        ⟨fun hc => h.1 (hc ▸ rfl), fun hc => h.2 (hc ▸ rfl)⟩
    rw [hletter]

private theorem parse_of_letter
    (h : s.toList.head? = some 'f' ∨ s.toList.head? = some 's') :
    (∃ c, parse s = .ok c) ∨ parse s = .error (.payload s) := by
  rw [parse]
  split
  next hs =>
    rw [hs] at h
    rcases h with h | h <;> cases h
  next c rest hs =>
    rw [hs] at h
    split
    next hnone =>
      obtain ⟨hf, hs⟩ := TermClass.ofLetter?_eq_none_iff.mp hnone
      exact h.elim (fun hc => absurd (Option.some.inj hc) hf)
        (fun hc => absurd (Option.some.inj hc) hs)
    next k _ =>
      split
      · exact .inr rfl
      next p _ => exact .inl ⟨⟨k, p⟩, rfl⟩

/-- A text that is no code is reported as it is: for its letter if it does not
    begin with one, and else for its payload. -/
theorem parse_eq_error_iff : parse s = .error e ↔
    (e = .letter s ∧ s.toList.head? ≠ some 'f' ∧ s.toList.head? ≠ some 's') ∨
    (e = .payload s ∧ (s.toList.head? = some 'f' ∨ s.toList.head? = some 's') ∧
      ¬ ∃ k n, n ≤ 131071 ∧ SpellsCode k n s.toList) := by
  rw [← exists_parse_ok_iff]
  by_cases h : s.toList.head? ≠ some 'f' ∧ s.toList.head? ≠ some 's'
  · rw [parse_of_no_letter h]
    constructor
    · intro he
      cases he
      exact .inl ⟨rfl, h⟩
    · rintro (⟨rfl, -⟩ | ⟨-, hletter, -⟩)
      · rfl
      · exact absurd hletter (not_or.mpr h)
  · have hletter := Decidable.of_not_not fun hnot => h (not_or.mp hnot)
    rcases parse_of_letter hletter with ⟨c, hc⟩ | herror
    · rw [hc]
      constructor
      · exact fun he => nomatch he
      · rintro (⟨-, hnot⟩ | ⟨-, -, hnone⟩)
        · exact absurd hnot h
        · exact absurd ⟨c, rfl⟩ hnone
    · rw [herror]
      constructor
      · intro he
        cases he
        refine .inr ⟨rfl, hletter, ?_⟩
        rintro ⟨c, hc⟩
        cases hc
      · rintro (⟨-, hnot⟩ | ⟨rfl, -, -⟩)
        · exact absurd hnot h
        · rfl

/-- A written code is read as itself. -/
theorem parse_text (c : TermCode) : parse c.text = .ok c := by
  refine parse_eq_ok_iff.mpr (spellsCode_iff.mpr ?_)
  rw [text, String.toList_ofList]
  exact ⟨_, rfl, isUnsigned_toDigits c.payload⟩

end RiskExchange.CutSet.TermCode
