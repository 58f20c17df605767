import RiskExchange.Identifier
import RiskExchange.Proofs.Json.Acceptance
import RiskExchange.Proofs.Json.Integers
import RiskExchange.Proofs.Solver.Respelling

/-! # Integer ids — which are written again as they stand

    An id that is an integer of 64 bits is written as it stands, and any other
    integer is written as the binary number that it has been read as. So the
    ids that are kept are those in 64 bits, they get names of their own, and
    larger ones share a name if they are read as the same binary number
    (`integer_ids_kept_iff`). -/

namespace RiskExchange.Solver

open RiskExchange.Json
open RiskExchange.Number (AreDigits)

variable {a b : NumberLiteral} {i j : RawId} {s : List Char}

/-- The id is decoded from the text. -/
def RawId.DecodedFrom (i : RawId) (s : List Char) : Prop :=
  (Document.read (asGlyphs s)).decode RawId.decoder = .ok i

/-- The id that is decoded from a numeral is the number that it is read as. -/
theorem decodedFrom_iff (h : SpellsNumber a s) : i.DecodedFrom s ↔
    ∃ n, Number.ofLiteral a = some n ∧ i = .number n := by
  have hblank : Blank [] := fun c hc => absurd hc List.not_mem_nil
  have hjson : IsJson (.number a) s := by
    have hspells := IsJson.intro hblank (.number h) hblank
    rw [List.nil_append, List.append_nil] at hspells
    exact hspells
  rw [RawId.DecodedFrom, decode_of_isJson hjson, decoder_eq_ok]
  constructor
  · rintro ⟨v, hv, hid⟩
    obtain ⟨n, hn, hv⟩ := bind_eq_ok hv
    cases hv
    cases hid
    exact ⟨n, NumberLiteral.read_eq_ok_iff.mp hn, rfl⟩
  · rintro ⟨n, hn, rfl⟩
    refine ⟨.number n, ?_, rfl⟩
    rw [Tree.read, NumberLiteral.read_eq_ok_iff.mpr hn]
    rfl

/-- Of the integers of a document those in 64 bits are kept: an id that is
    decoded from one is written as it stands, and for any other integer it is
    written differently or there is none. Two integer ids get the same name of
    a kind if and only if they are the same integer, or neither is in 64 bits
    and they are read as the same binary number. -/
theorem integer_ids_kept_iff (ha : a.IsInteger) (hb : b.IsInteger) :
    ((∃ i : RawId, i.DecodedFrom a.chars ∧ i.written.toList = a.chars) ↔
      a.InWord) ∧
    ∀ i j : RawId, i.DecodedFrom a.chars → j.DecodedFrom b.chars →
      ∀ tag : Tag,
        Identifier.tagged tag i.written = Identifier.tagged tag j.written ↔
          a = b ∨ (¬a.InWord ∧ ¬b.InWord ∧
            ∃ x, i = .number (.float x) ∧ j = .number (.float x)) := by
  have hdecoded {i : RawId} := decodedFrom_iff (i := i)
    (spellsNumber_chars ha.toWellSpelled)
  constructor
  · constructor
    · rintro ⟨i, hi, hwritten⟩
      obtain ⟨n, hn, rfl⟩ := hdecoded.mp hi
      refine (ha.spell_eq_iff hn).mp ?_
      refine NumberLiteral.chars_inj (Number.wellSpelled_spell n)
        ha.toWellSpelled ?_
      rw [Number.chars_spell]
      exact hwritten
    · intro h
      obtain ⟨n, hn, hspell⟩ := ha.ofLiteral_of_inWord h
      refine ⟨.number n, hdecoded.mpr ⟨n, hn, rfl⟩, ?_⟩
      rw [RawId.written, ← Number.chars_spell, hspell]
  · intro i j hi hj tag
    obtain ⟨n, hn, rfl⟩ := hdecoded.mp hi
    obtain ⟨m, hm, rfl⟩ :=
      (decodedFrom_iff (spellsNumber_chars hb.toWellSpelled)).mp hj
    have hname : Identifier.tagged tag (RawId.number n).written
        = Identifier.tagged tag (RawId.number m).written ↔ n = m := by
      constructor
      · intro h
        exact Number.text_inj (Number.stored_of_ofLiteral hn)
          (Number.stored_of_ofLiteral hm) (Identifier.tagged.inj h).2
      · rintro rfl
        rfl
    rw [hname, ha.ofLiteral_eq_iff hb hn hm]
    simp only [RawId.number.injEq]

/-- The greatest unsigned number of 64 bits and the least signed one are
    kept. -/
theorem integer_ids_kept_iff_words :
    (∃ i : RawId, i.DecodedFrom "18446744073709551615".toList ∧
      i.written.toList = "18446744073709551615".toList) ∧
    ∃ i : RawId, i.DecodedFrom "-9223372036854775808".toList ∧
      i.written.toList = "-9223372036854775808".toList := by
  have ha : NumberLiteral.IsInteger ⟨false,
      [1, 8, 4, 4, 6, 7, 4, 4, 0, 7, 3, 7, 0, 9, 5, 5, 1, 6, 1, 5],
      none, none⟩ :=
    .ofDigits (by unfold AreDigits; decide) (.inr ⟨_, _, rfl, by decide⟩)
  have hb : NumberLiteral.IsInteger ⟨true,
      [9, 2, 2, 3, 3, 7, 2, 0, 3, 6, 8, 5, 4, 7, 7, 5, 8, 0, 8],
      none, none⟩ :=
    .ofDigits (by unfold AreDigits; decide) (.inr ⟨_, _, rfl, by decide⟩)
  constructor
  · refine (integer_ids_kept_iff ha hb).1.mpr ?_
    unfold NumberLiteral.InWord
    decide
  · refine (integer_ids_kept_iff hb ha).1.mpr ?_
    unfold NumberLiteral.InWord
    decide

/-- Two integers next to each other beyond 64 bits are the same id, which is
    written as neither of them; a zero with a minus gets a point. -/
theorem large_integers_share_id :
    (∃ i : RawId, i.DecodedFrom "18446744073709551616".toList ∧
      i.DecodedFrom "18446744073709551617".toList ∧
      i.written = "1.8446744073709552e+19") ∧
    ∃ i : RawId, i.DecodedFrom "-0".toList ∧ i.written = "-0.0" := by
  have hlarge : (RawId.number (.float ⟨false, 2 ^ 52, 12⟩)).written
      = "1.8446744073709552e+19" := by decide +kernel
  have hzero : (RawId.number (.float (.zero true))).written = "-0.0" := by
    decide +kernel
  refine ⟨⟨_, ?_, ?_, hlarge⟩, ⟨_, ?_, hzero⟩⟩
  all_goals
    unfold RawId.DecodedFrom
    decide +kernel

end RiskExchange.Solver
