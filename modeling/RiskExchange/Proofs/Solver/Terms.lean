import RiskExchange.Proofs.Json.Integers
import RiskExchange.Proofs.Model.Naming
import RiskExchange.Proofs.Solver.Respelling
import RiskExchange.Proofs.Text.Padding

/-! # Terms — which values are the terms of a sequence

    A term is an unsigned integer of 64 bits, written as a literal of digits
    alone or as a string that has it between blanks (`DenotesTerm`). A literal
    with a sign, a fraction or an exponent is read as another kind of number,
    whatever its value, and so is an integer beyond 64 bits. A list of terms is
    decoded exactly if each of its elements is a term
    (`terms_decoded_iff`). -/

namespace RiskExchange.Solver

open RiskExchange.Json
open RiskExchange.Model (exists_forall₂_iff)
open RiskExchange.Number (Numeral.digitsValue)
open RiskExchange.Text (IsPadded maxWord64 readUnsigned trim
  readUnsigned_trim_eq_ok_iff)

variable {depth n : Nat} {t : Tree} {v : Value} {ts : List Tree} {ns : List Nat}

/-! ## Values that are terms -/

/-- The value is a term: a literal of digits alone, or a string that has a
    numeral between blanks, of a number of 64 bits. -/
inductive DenotesTerm : Tree → Nat → Prop where
  | integer {l : NumberLiteral} (hsign : l.negative = false)
      (hfraction : l.fraction = none) (hexponent : l.exponent = none)
      (hword : Numeral.digitsValue 0 l.whole < 2 ^ 64) :
      DenotesTerm (.number l) (Numeral.digitsValue 0 l.whole)
  | string {l : StringLiteral} {s : String} {n : Nat} (hs : l.read = .ok s)
      (hn : IsPadded n s.toList) (hword : n < 2 ^ 64) :
      DenotesTerm (.string l) n

/-- The value stands for these terms: an array of them, in order, or `null` if
    there are none. -/
inductive ListsTerms : Tree → List Nat → Prop where
  | null : ListsTerms .null []
  | array {ts : List Tree} {ns : List Nat}
      (h : List.Forall₂ DenotesTerm ts ns) : ListsTerms (.array ts .closed) ns

/-! ## Decoding -/

theorem le_maxWord64_iff : n ≤ maxWord64 ↔ n < 2 ^ 64 :=
  Nat.le_iff_lt_add_one

/-- A value that has been read is a term if it is an unsigned number, or a
    string with one. -/
theorem termOfJson_eq_ok_iff : termOfJson v = .ok n ↔
    v = .number (.natural n) ∨
      ∃ s, v = .string s ∧ IsPadded n s.toList ∧ n < 2 ^ 64 := by
  constructor
  · intro h
    unfold termOfJson at h
    split at h
    next m => exact .inl (congrArg _ (congrArg _ (Except.ok.inj h)))
    next s =>
      split at h
      next m hm =>
        cases h
        obtain ⟨hpadded, hword⟩ := readUnsigned_trim_eq_ok_iff.mp hm
        exact .inr ⟨s, rfl, hpadded, le_maxWord64_iff.mp hword⟩
      next => exact nomatch h
    next => exact nomatch h
  · rintro (rfl | ⟨s, rfl, hpadded, hword⟩)
    · rfl
    · rw [termOfJson, readUnsigned_trim_eq_ok_iff.mpr
        ⟨hpadded, le_maxWord64_iff.mpr hword⟩]

/-- What is decoded is what is denoted. -/
theorem term_eq_ok_iff : term depth t = .ok n ↔ DenotesTerm t n := by
  refine judged_eq_ok.trans ?_
  constructor
  · rintro ⟨v, hv, hn⟩
    rcases termOfJson_eq_ok_iff.mp hn with rfl | ⟨s, rfl, hpadded, hword⟩
    · obtain ⟨l, rfl, hl⟩ := read_eq_number hv
      obtain ⟨⟨hsign, hfraction, hexponent⟩, rfl, hword⟩ :=
        NumberLiteral.ofLiteral_eq_natural_iff.mp
          (NumberLiteral.read_eq_ok_iff.mp hl)
      exact .integer hsign hfraction hexponent (le_maxWord64_iff.mp hword)
    · obtain ⟨l, rfl, hl⟩ := read_eq_string hv
      exact .string hl hpadded hword
  · intro h
    cases h with
    | @integer l hsign hfraction hexponent hword =>
        have hl : l.read = .ok (.natural (Numeral.digitsValue 0 l.whole)) :=
          NumberLiteral.read_eq_ok_iff.mpr
            (NumberLiteral.ofLiteral_eq_natural_iff.mpr
              ⟨⟨hsign, hfraction, hexponent⟩, rfl, le_maxWord64_iff.mpr hword⟩)
        refine ⟨_, ?_, termOfJson_eq_ok_iff.mpr (.inl rfl)⟩
        rw [Tree.read, hl]
        rfl
    | @string l s n hs hn hword =>
        refine ⟨.string s, ?_,
          termOfJson_eq_ok_iff.mpr (.inr ⟨s, rfl, hn, hword⟩)⟩
        rw [Tree.read, hs]
        rfl

/-- An array of terms is decoded element by element. -/
theorem term_list_eq_ok_iff (hd : 1 < depth) : term.list depth t = .ok ns ↔
    ∃ ts, t = .array ts .closed ∧ List.Forall₂ DenotesTerm ts ns := by
  rw [Decoder.list_eq_ok]
  simp only [Decoder.items_eq_ok, term_eq_ok_iff, hd, true_and]

theorem listsTerms_iff (hd : 1 < depth) :
    term.listOrNull depth t = .ok ns ↔ ListsTerms t ns := by
  rw [Decoder.listOrNull_eq_ok, term_list_eq_ok_iff hd]
  constructor
  · rintro (⟨rfl, rfl⟩ | ⟨ts, rfl, h⟩)
    · exact .null
    · exact .array h
  · rintro (_ | h)
    · exact .inl ⟨rfl, rfl⟩
    · exact .inr ⟨_, rfl, h⟩

/-- The list of a sequence is decoded as its terms. -/
theorem field_logiclist : ∃ f ∈ sequenceShape.fields, f.name = "logiclist" ∧
    ∀ depth t put, 1 < depth → (f.read depth t = .ok put ↔
      ∃ ns, ListsTerms t ns ∧ put = fun d => { d with terms := some ns }) := by
  refine ⟨_, .tail _ (.head _), rfl, fun depth t put hd => ?_⟩
  constructor
  · intro h
    obtain ⟨ns, hns, h⟩ := bind_eq_ok h
    exact ⟨ns, (listsTerms_iff hd).mp hns, (Except.ok.inj h).symm⟩
  · rintro ⟨ns, hns, rfl⟩
    have hread := (listsTerms_iff hd).mpr hns
    show (term.listOrNull depth t >>= _) = _
    rw [hread]
    rfl

/-- A value is decoded exactly if it is a term, and as that term; a list of
    terms exactly if it is an array of them, in order, or `null` for the empty
    list; and the terms of a sequence are such a list. So an array is decoded
    if and only if each of its elements is: one that is not a term makes the
    whole list fail. -/
theorem terms_decoded_iff :
    (∀ (s : List Char) (n : Nat),
      (Document.read (asGlyphs s)).decode term = .ok n ↔
        ∃ t, IsJson t s ∧ DenotesTerm t n) ∧
    (∀ (s : List Char) (ns : List Nat),
      (Document.read (asGlyphs s)).decode term.listOrNull = .ok ns ↔
        ∃ t, IsJson t s ∧ ListsTerms t ns) ∧
    (∃ f ∈ sequenceShape.fields, f.name = "logiclist" ∧
      ∀ depth t put, 1 < depth → (f.read depth t = .ok put ↔
        ∃ ns, ListsTerms t ns ∧ put = fun d => { d with terms := some ns })) ∧
    ∀ depth ts, 1 < depth →
      ((∃ ns, term.listOrNull depth (.array ts .closed) = .ok ns) ↔
        ∀ t ∈ ts, ∃ n, term (depth - 1) t = .ok n) := by
  have hdepth : 1 < depthLimit := by decide
  refine ⟨fun s n => ?_, fun s ns => ?_, field_logiclist, fun depth ts hd => ?_⟩
  · simp only [decode_eq_ok_iff term_passes, term_eq_ok_iff]
  · simp only [decode_eq_ok_iff term_passes.listOrNull, listsTerms_iff hdepth]
  · rw [← exists_forall₂_iff]
    simp only [Decoder.listOrNull_array, Decoder.list_array_eq_ok, hd,
      Decoder.items_eq_ok, true_and, and_true]

/-- The greatest number of 64 bits is a term, and so is a quoted one with a
    plus and a wide blank; the number after the greatest is none, even in a
    list with terms. -/
theorem terms_decoded_iff_words :
    (Document.read (asGlyphs
        "[18446744073709551615,\" +007\\u2003\"]".toList)).decode
        term.listOrNull = .ok [18446744073709551615, 7] ∧
    ∀ ns, (Document.read (asGlyphs "[7,18446744073709551616]".toList)).decode
      term.listOrNull ≠ .ok ns := by
  constructor
  · have hjson : IsJson (.array [
        .number ⟨false, [1, 8, 4, 4, 6, 7, 4, 4, 0, 7, 3, 7, 0, 9, 5, 5, 1, 6,
          1, 5], none, none⟩,
        .string ⟨[.plain ' ', .plain '+', .plain '0', .plain '0', .plain '7',
          .unit 0x2003], .closed⟩] .closed)
        "[18446744073709551615,\" +007\\u2003\"]".toList :=
      isJson_iff_pass.mpr ⟨rfl, rfl⟩
    have hread :
        readUnsigned maxWord64 (trim " +007\u2003".toList) = .ok 7 := by
      decide
    have hpadded := (readUnsigned_trim_eq_ok_iff.mp hread).1
    exact (terms_decoded_iff.2.1 _ _).mpr ⟨_, hjson, .array (.cons
      (.integer rfl rfl rfl (by decide))
      (.cons (.string rfl hpadded (by decide)) .nil))⟩
  · intro ns h
    have hjson : IsJson (.array [.number ⟨false, [7], none, none⟩,
        .number ⟨false, [1, 8, 4, 4, 6, 7, 4, 4, 0, 7, 3, 7, 0, 9, 5, 5, 1, 6,
          1, 6], none, none⟩] .closed) "[7,18446744073709551616]".toList :=
      isJson_iff_pass.mpr ⟨rfl, rfl⟩
    obtain ⟨t, ht, hterms⟩ := (terms_decoded_iff.2.1 _ _).mp h
    cases (read_of_isJson ht).symm.trans (read_of_isJson hjson)
    cases hterms with
    | array hterms =>
        obtain _ | ⟨-, _ | ⟨hlast, -⟩⟩ := hterms
        cases hlast with
        | integer _ _ _ hword => exact absurd hword (by decide)

end RiskExchange.Solver
