import RiskExchange.Proofs.Json.Respelling
import RiskExchange.Proofs.Store.Persisting

/-! # Other entries — what persisting makes of them

    The entries under other keys are read and printed again, whatever their
    shape. What the file says under such a key (`entryDatum`) keeps its
    nesting, its order and its strings, but each numeral is `respelled`, so it
    is kept as a JSON value exactly if every numeral in it stands for the same
    number when it is respelled. Integers that fit 64 bits do. -/

namespace RiskExchange.Store.SequenceStore

open RiskExchange.CutSet (SequenceLogic)
open RiskExchange.Disk
open RiskExchange.Disk.Session
open RiskExchange.Json

variable {s : SequenceStore} {path key : String} {l : SequenceLogic}
  {d : Disk} {c : ByteArray} {entries : List (String × Value)} {v : Value}

/-! ## What a file says -/

/-- What a file says, if it holds one whole value. -/
def datumOf (c : ByteArray) : Option (Datum NumberLiteral) :=
  let text := Document.read (Text.glyphs c)
  if text.trailing then none else text.root.datum?

/-- What a file says under a key. -/
def entryDatum (key : String) (c : ByteArray) : Option (Datum NumberLiteral) :=
  (datumOf c).bind (Datum.member? key)

/-- A JSON value with the numbers that its numerals stand for. -/
def exactly (D : Datum NumberLiteral) : Datum ℚ := D.map NumberLiteral.exact

/-- What is read under a key keeps what the file says there. -/
theorem entryDatum_of_readEntries (h : readEntries path c = .ok entries)
    (hv : lookupMember key entries = some v) :
    ∃ D, entryDatum key c = some D ∧ Keeps D v := by
  have hvalue : (Document.read (Text.glyphs c)).value
      = .ok (.object entries) := by
    rw [readEntries] at h
    split at h
    · cases h
    · rename_i heq
      cases h
      exact heq
    · cases h
  rw [Document.value] at hvalue
  obtain ⟨w, hw, hvalue⟩ := bind_eq_ok hvalue
  rw [entryDatum, datumOf]
  by_cases htrailing : (Document.read (Text.glyphs c)).trailing = true
  · rw [if_pos htrailing] at hvalue
    cases hvalue
  · rw [if_neg htrailing] at hvalue
    cases hvalue
    obtain ⟨D, E, hD, hE, hkeeps⟩ := member_of_read hw hv
    rw [if_neg htrailing, hD]
    exact ⟨E, hE, hkeeps⟩

/-- What a saved store says under a key is what is printed there. -/
theorem entryDatum_content (h : s.keys.Nodup) (key : String) :
    entryDatum key s.content
      = (lookupMember key s.entries).map Value.datum := by
  have hread : Document.read (Text.glyphs s.content)
      = ⟨(Value.object s.entries).tree, false⟩ := by
    rw [content, printObject, glyphs_toUTF8, String.toList_ofList, read_print]
  rw [entryDatum, datumOf, hread]
  dsimp only
  rw [if_neg Bool.false_ne_true, datum?_tree]
  exact member?_datum h key

/-! ## What persisting keeps -/

/-- A datum is exactly the same with its numerals respelled if each of them
    stands for the same number then. -/
theorem exactly_map_respelled_iff (D : Datum NumberLiteral) :
    exactly (D.map NumberLiteral.respelled) = exactly D ↔
      ∀ a, D.Mentions a → a.respelled.exact = a.exact := by
  rw [exactly, exactly, Datum.map_map]
  exact Datum.map_eq_map_iff D

/-- Whenever a logic is persisted, the file says under every other key what it
    said before, with each numeral respelled, if no object in it repeats a
    name. So it says the same JSON value exactly if every numeral there stands
    for the same number when it is respelled, which integers that fit 64 bits
    do. -/
theorem other_entries_respelled (ho : (openAt path).outcome d = .ok s)
    (hkey : key ∈ s.keys) (hne : key ≠ l.key)
    (h : (persist path l).outcome d = .ok ()) :
    ∃ c D c', d.entryAt path = .ok (.file c) ∧ entryDatum key c = some D ∧
      ((persist path l).after d).entryAt path = .ok (.file c') ∧
      (D.Distinct →
        entryDatum key c' = some (D.map NumberLiteral.respelled) ∧
        ((entryDatum key c').map exactly = (entryDatum key c).map exactly ↔
          ∀ a, D.Mentions a → a.respelled.exact = a.exact) ∧
        ((∀ a, D.Mentions a → a.IsWord) →
          (entryDatum key c').map exactly
            = (entryDatum key c).map exactly)) := by
  obtain ⟨s', made, p, ho', hready⟩ := ready_of_persist h
  cases ho.symm.trans ho'
  obtain ⟨v, hv⟩ : ∃ v, lookupMember key s.entries = some v := by
    refine Option.ne_none_iff_exists'.mp ?_
    rw [Ne, lookupMember_eq_none_iff]
    exact not_not_intro hkey
  rcases openAt_eq_ok_iff.mp ho with ⟨c, entries, hc, hr, rfl⟩ | ⟨-, rfl⟩
  · obtain ⟨D, hD, hkeeps⟩ := entryDatum_of_readEntries hr hv
    -- from here on only what is looked up in the opened store matters
    generalize hs : (⟨path, entries, true⟩ : SequenceStore) = s at *
    obtain ⟨-, hafter⟩ := persist_of_ready (l := l) ho hready
    refine ⟨c, D, (s.insert l).content, hc, hD, ?_, ?_⟩
    · rw [hafter]
      exact hready.entryAt_put _
    · intro hdistinct
      have hsame : entryDatum key (s.insert l).content
          = some (D.map NumberLiteral.respelled) := by
        rw [entryDatum_content
          (nodup_keys (storable_insert (storable_of_openAt ho) l))]
        change (lookupMember key
          (insertMember l.key l.toJson s.entries)).map _ = _
        rw [lookupMember_insertMember, if_neg hne, hv]
        exact congrArg some (hkeeps hdistinct)
      have hexact : (entryDatum key (s.insert l).content).map exactly
          = (entryDatum key c).map exactly ↔
          ∀ a, D.Mentions a → a.respelled.exact = a.exact := by
        rw [hsame, hD, Option.map_some, Option.map_some, Option.some.injEq]
        exact exactly_map_respelled_iff D
      refine ⟨hsame, hexact, fun hwords => hexact.mpr ?_⟩
      intro a ha
      exact NumberLiteral.exact_respelled (hwords a ha)
  · -- a store without a file has no keys
    exact nomatch hkey

/-- What the file of `twoNumbers` holds. -/
def twoNumbersText : ByteArray :=
  "\x7b\"X\":18446744073709551617,\"Y\":-5\x7d".toUTF8

/-- What it holds after a logic has been persisted. -/
def twoNumbersAfter : ByteArray :=
  "\x7b\"X\":1.8446744073709552e+19,\"Y\":-5,\"B-1\":[]\x7d".toUTF8

/-- A disk with nothing but a store, whose entries are numbers that somebody
    else wrote, one of them too large for 64 bits. -/
def twoNumbers : Disk where
  entries := [(["s.json"], .file twoNumbersText)]
  here := []

theorem keys_twoNumbers : ∃ s, (openAt "s.json").outcome twoNumbers = .ok s ∧
    s.keys = ["X", "Y"] := by
  have h : ((openAt "s.json").outcome twoNumbers).toOption.map keys
      = some ["X", "Y"] := by decide +kernel
  obtain ⟨s, hs, hkeys⟩ := Option.map_eq_some_iff.mp h
  exact ⟨s, toOption_eq_some_iff.mp hs, hkeys⟩

private theorem entryDatum_eq_number (key : String) (c : ByteArray)
    {a : NumberLiteral} (h : (entryDatum key c).bind Datum.number? = some a) :
    entryDatum key c = some (.number a) := by
  obtain ⟨D, hD, ha⟩ := Option.bind_eq_some_iff.mp h
  rw [hD, Datum.eq_number_of_number? ha]

/-- The number within 64 bits is kept. -/
theorem other_entries_respelled_twoNumbers :
    (persist "s.json" ⟨"B-1", []⟩).outcome twoNumbers = .ok () ∧
    ∃ c', ((persist "s.json" ⟨"B-1", []⟩).after twoNumbers).entryAt "s.json"
        = .ok (.file c') ∧
      (entryDatum "Y" c').map exactly
        = (entryDatum "Y" twoNumbersText).map exactly := by
  obtain ⟨s, ho, hkeys⟩ := keys_twoNumbers
  have hmem : "Y" ∈ s.keys := by
    rw [hkeys]
    decide
  have hok : (persist "s.json" ⟨"B-1", []⟩).outcome twoNumbers = .ok () := by
    decide +kernel
  obtain ⟨c, D, c', hc, hD, hc', hkept⟩ :=
    other_entries_respelled ho hmem (by decide) hok
  have htext : twoNumbers.entryAt "s.json" = .ok (.file twoNumbersText) := by
    decide +kernel
  cases htext.symm.trans hc
  have hY := entryDatum_eq_number "Y" twoNumbersText
    (a := ⟨true, [5], none, none⟩) (by decide +kernel)
  cases hY.symm.trans hD
  refine ⟨hok, c', hc', (hkept (.number _)).2.2 ?_⟩
  rintro a ⟨⟩
  exact ⟨rfl, rfl, by decide⟩

/-- The number that is too large for 64 bits is rounded. -/
theorem large_integer_rounded :
    (∃ s, (openAt "s.json").outcome twoNumbers = .ok s ∧ "X" ∈ s.keys) ∧
    (persist "s.json" ⟨"B-1", []⟩).outcome twoNumbers = .ok () ∧
    twoNumbers.entryAt "s.json" = .ok (.file twoNumbersText) ∧
    ((persist "s.json" ⟨"B-1", []⟩).after twoNumbers).entryAt "s.json"
      = .ok (.file twoNumbersAfter) ∧
    entryDatum "X" twoNumbersText = some (.number
      ⟨false, Number.decimalDigits 18446744073709551617, none, none⟩) ∧
    (entryDatum "X" twoNumbersAfter).map exactly
      ≠ (entryDatum "X" twoNumbersText).map exactly := by
  obtain ⟨s, ho, hkeys⟩ := keys_twoNumbers
  have hmem : "X" ∈ s.keys := by
    rw [hkeys]
    decide
  have hbefore := entryDatum_eq_number "X" twoNumbersText
    (a := ⟨false, Number.decimalDigits 18446744073709551617, none, none⟩)
    (by decide +kernel)
  have hafter := entryDatum_eq_number "X" twoNumbersAfter
    (a := ⟨false, [1], some (Number.decimalDigits 8446744073709552),
      some (false, [1, 9])⟩) (by decide +kernel)
  refine ⟨⟨s, ho, hmem⟩, by decide +kernel, by decide +kernel,
    by decide +kernel, hbefore, ?_⟩
  rw [hbefore, hafter]
  intro heq
  have hnumbers := Datum.number.inj (Option.some.inj heq)
  revert hnumbers
  decide +kernel

end RiskExchange.Store.SequenceStore
