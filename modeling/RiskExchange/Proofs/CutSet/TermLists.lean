import RiskExchange.Proofs.CutSet.Folding
import RiskExchange.Proofs.Json.Acceptance

/-! # Term lists — codes as strings in JSON

    A JSON text is a list of codes if it is an array of strings that are codes
    (`decodeList_eq_ok_iff`); if it is an array of strings and one of them is no
    code, the first such string is what is reported. A list of codes is printed
    as such an array and decoded again as itself (`decodeList_printList`), so
    all that is known of one code holds of lists (`codes_read_as_spelled`). -/

namespace RiskExchange.CutSet.TermCode

open RiskExchange.Json

variable {s : List Char} {depth : Nat} {t : Tree} {ts : List Tree}
  {word : String} {before after : List String} {c : TermCode}
  {codes : List TermCode} {e : ParseError}

/-- The list of codes that a JSON text holds. -/
def decodeList (s : List Char) : Except Error (List TermCode) :=
  (Document.read (asGlyphs s)).decode (.list decoder)

/-- The JSON text of a list of codes. -/
def printList (codes : List TermCode) : List Char :=
  (Value.array (codes.map toJson)).print

/-- The JSON value of the text is the array of the given strings. -/
def IsStrings (s : List Char) (texts : List String) : Prop :=
  (Document.read (asGlyphs s)).value = .ok (.array (texts.map .string))

/-! ## One code -/

theorem decoder_eq_ok : decoder depth t = .ok c ↔
    ∃ text, t.read depth = .ok (.string text) ∧ parse text = .ok c := by
  constructor
  · intro h
    obtain ⟨text, htext, h⟩ := bind_eq_ok h
    refine ⟨text, Decoder.string_eq_ok.mp htext, ?_⟩
    dsimp only at h
    cases hparse : parse text with
    | error e =>
        rw [hparse] at h
        exact nomatch h
    | ok c' =>
        rw [hparse] at h
        exact congrArg Except.ok (Except.ok.inj h)
  · rintro ⟨text, htext, hparse⟩
    rw [decoder, Decoder.text, Decoder.string_eq_ok.mpr htext, ok_bind, hparse]
    rfl

theorem decoder_of_error (hword : t.read depth = .ok (.string word))
    (he : parse word = .error e) :
    decoder depth t = .error (.mismatch (.badText e.message)) := by
  rw [decoder, Decoder.text, Decoder.string_eq_ok.mpr hword, ok_bind, he]
  rfl

/-! ## Lists of codes -/

theorem items_eq_ok : Decoder.items decoder depth ts = .ok codes ↔
    ∃ texts, readItems depth ts = .ok (texts.map .string) ∧
      List.Forall₂ (fun text c => parse text = .ok c) texts codes := by
  induction ts generalizing codes with
  | nil =>
      constructor
      · intro h
        cases h
        exact ⟨[], rfl, .nil⟩
      · rintro ⟨texts, h, hall⟩
        cases List.map_eq_nil_iff.mp (Except.ok.inj h).symm
        cases hall
        rfl
  | cons t rest ih =>
      rw [Decoder.items_cons_eq_ok]
      constructor
      · rintro ⟨c, codes, hc, hcodes, rfl⟩
        obtain ⟨text, htext, hparse⟩ := decoder_eq_ok.mp hc
        obtain ⟨texts, htexts, hall⟩ := ih.mp hcodes
        refine ⟨text :: texts, ?_, .cons hparse hall⟩
        rw [readItems, htext, ok_bind, htexts]
        rfl
      · rintro ⟨texts, h, hall⟩
        obtain ⟨v, hv, h⟩ := bind_eq_ok h
        obtain ⟨vs, hvs, h⟩ := bind_eq_ok h
        cases hall with
        | nil => cases h
        | cons hparse hall =>
            obtain ⟨rfl, rfl⟩ := List.cons.inj (Except.ok.inj h)
            exact ⟨_, _, decoder_eq_ok.mpr ⟨_, hv, hparse⟩,
              ih.mpr ⟨_, hvs, hall⟩, rfl⟩

/-- Strings are decoded from left to right up to the first that is no code. -/
theorem items_of_error
    (h : readItems depth ts = .ok ((before ++ word :: after).map .string))
    (hbefore : ∀ b ∈ before, ∃ c, parse b = .ok c)
    (he : parse word = .error e) :
    Decoder.items decoder depth ts = .error (.mismatch (.badText e.message)) := by
  induction before generalizing ts with
  | nil =>
      cases ts with
      | nil => cases h
      | cons t rest =>
          obtain ⟨v, hv, h⟩ := bind_eq_ok h
          obtain ⟨vs, -, h⟩ := bind_eq_ok h
          obtain ⟨rfl, -⟩ := List.cons.inj (Except.ok.inj h)
          rw [Decoder.items, decoder_of_error hv he]
          rfl
  | cons b before ih =>
      cases ts with
      | nil => cases h
      | cons t rest =>
          obtain ⟨v, hv, h⟩ := bind_eq_ok h
          obtain ⟨vs, hvs, h⟩ := bind_eq_ok h
          obtain ⟨rfl, rfl⟩ := List.cons.inj (Except.ok.inj h)
          obtain ⟨⟨c, hc⟩, hbefore⟩ := List.forall_mem_cons.mp hbefore
          rw [Decoder.items, decoder_eq_ok.mpr ⟨b, hv, hc⟩, ok_bind,
            ih hvs hbefore]
          rfl

/-! ## Whole texts -/

/-- A text is a list of codes if it is an array of strings that are codes, and
    the codes are those of the strings in order. -/
theorem decodeList_eq_ok_iff : decodeList s = .ok codes ↔ ∃ texts,
    IsStrings s texts ∧
      List.Forall₂ (fun text c => parse text = .ok c) texts codes := by
  rw [decodeList, Document.decode]
  unfold IsStrings Document.value
  generalize Document.read (asGlyphs s) = doc
  constructor
  · intro h
    obtain ⟨codes', hcodes, h⟩ := bind_eq_ok h
    split at h
    · cases h
    next htrailing =>
      cases h
      obtain ⟨ts, hroot, hdepth, hitems⟩ := Decoder.list_eq_ok.mp hcodes
      obtain ⟨texts, htexts, hall⟩ := items_eq_ok.mp hitems
      refine ⟨texts, ?_, hall⟩
      rw [hroot, read_array hdepth htexts, ok_bind, if_neg htrailing]
      rfl
  · rintro ⟨texts, h, hall⟩
    obtain ⟨v, hv, h⟩ := bind_eq_ok h
    split at h
    · cases h
    next htrailing =>
      cases h
      obtain ⟨ts, hroot, hdepth, hitems⟩ := read_eq_array hv
      rw [Decoder.list_eq_ok.mpr
        ⟨ts, hroot, hdepth, items_eq_ok.mpr ⟨texts, hitems, hall⟩⟩, ok_bind,
        if_neg htrailing]
      rfl

/-- Of an array of strings the first that is no code is reported. -/
theorem decodeList_of_error (h : IsStrings s (before ++ word :: after))
    (hbefore : ∀ b ∈ before, ∃ c, parse b = .ok c)
    (he : parse word = .error e) :
    decodeList s = .error (.mismatch (.badText e.message)) := by
  unfold IsStrings Document.value at h
  obtain ⟨v, hv, h⟩ := bind_eq_ok h
  split at h
  · cases h
  next =>
    cases h
    obtain ⟨ts, hroot, hdepth, hitems⟩ := read_eq_array hv
    rw [decodeList, Document.decode, hroot, Decoder.list,
      if_neg (Nat.not_le.mpr hdepth)]
    change (Decoder.items decoder (depthLimit - 1) ts >>= _) >>= _ = _
    rw [items_of_error hitems hbefore he]
    rfl

/-- A printed array of strings is one. -/
theorem isStrings_print (texts : List String) :
    IsStrings (Value.array (texts.map .string)).print texts := by
  have hstorable : (Value.array (texts.map .string)).Storable depthLimit := by
    refine .array (by decide) ?_
    exact List.forall_mem_map.mpr fun s _ => .string s
  rw [IsStrings, value_read_print hstorable, Value.reread, rereadItems_eq_map,
    List.map_map]
  rfl

/-- A printed list of codes is decoded as itself. -/
theorem decodeList_printList (codes : List TermCode) :
    decodeList (printList codes) = .ok codes := by
  have hstrings : IsStrings (printList codes) (codes.map text) := by
    have h := isStrings_print (codes.map text)
    rw [List.map_map] at h
    exact h
  refine decodeList_eq_ok_iff.mpr ⟨_, hstrings, ?_⟩
  refine List.forall₂_map_left_iff.mpr (List.forall₂_same.mpr ?_)
  exact fun c _ => parse_text c

example : printList [.ofTerm 65, .ofTerm 151553]
    = "[\"s65\",\"f20481\"]".toList := by decide

/-- A text is read as a code exactly if it is a letter and an unsigned numeral
    of 17 bits, and then as the code of that class and payload; any other text
    is reported as it is, for its letter if it begins with neither of the two
    and else for its payload. The code of a term has the term's low 17 bits for
    its payload and is read again as itself, and so is every code that has been
    read. A JSON text is read as a list of codes exactly if it is an array of
    strings that are read as these codes, and the first string that is no code
    is what is reported; lists are printed and read again as themselves. -/
theorem codes_read_as_spelled :
    (∀ s c, parse s = .ok c ↔ SpellsCode c.kind c.payload s.toList) ∧
    (∀ s, (∃ c, parse s = .ok c) ↔
      ∃ k n, n ≤ 131071 ∧ SpellsCode k n s.toList) ∧
    (∀ s x, parse s = .error (.letter x) ↔
      x = s ∧ s.toList.head? ≠ some 'f' ∧ s.toList.head? ≠ some 's') ∧
    (∀ s x, parse s = .error (.payload x) ↔
      x = s ∧ (s.toList.head? = some 'f' ∨ s.toList.head? = some 's') ∧
        ¬ ∃ k n, n ≤ 131071 ∧ SpellsCode k n s.toList) ∧
    (∀ v : Nat, parse (ofTerm v).text = .ok (ofTerm v) ∧
      ((ofTerm v).payload : Nat) = v % 2 ^ 17) ∧
    (∀ s c, parse s = .ok c → parse c.text = .ok c) ∧
    (∀ s codes, decodeList s = .ok codes ↔ ∃ texts, IsStrings s texts ∧
      List.Forall₂ (fun text c => parse text = .ok c) texts codes) ∧
    (∀ s before text after e, IsStrings s (before ++ text :: after) →
      (∀ b ∈ before, ∃ c, parse b = .ok c) → parse text = .error e →
      decodeList s = .error (.mismatch (.badText e.message))) ∧
    (∀ terms : List Nat, decodeList (printList (encodeTerms terms))
      = .ok (encodeTerms terms)) ∧
    ∀ s codes, decodeList s = .ok codes →
      decodeList (printList codes) = .ok codes := by
  refine ⟨fun s c => parse_eq_ok_iff, fun s => exists_parse_ok_iff, ?_, ?_, ?_,
    ?_, fun s codes => decodeList_eq_ok_iff, ?_, ?_, ?_⟩
  · intro s x
    simp [parse_eq_error_iff]
  · intro s x
    simp [parse_eq_error_iff]
  · exact fun v => ⟨parse_text _, payload_ofTerm v⟩
  · exact fun s c _ => parse_text c
  · exact fun s before text after e h hbefore he =>
      decodeList_of_error h hbefore he
  · exact fun terms => decodeList_printList _
  · exact fun s codes _ => decodeList_printList codes

/-- A code with a plus and zeros is read and written without them, alone and
    in a list. The number behind the greatest payload is too large, and in a
    list it is what is reported, although a text without a letter follows. -/
theorem codes_read_as_spelled_plus :
    parse "f+0012" = .ok ⟨.basicEvent, 12⟩ ∧
    parse (text ⟨.basicEvent, 12⟩) = .ok ⟨.basicEvent, 12⟩ ∧
    decodeList (printList [⟨.basicEvent, 12⟩]) = .ok [⟨.basicEvent, 12⟩] ∧
    decodeList (Value.array [.string "s+1", .string "f131072", .string "x"]).print
      = .error (.mismatch
          (.badText (ParseError.payload "f131072").message)) := by
  obtain ⟨hok, -, -, -, -, hagain, hlist, herror, -, hlistAgain⟩ :=
    codes_read_as_spelled
  have hplus : parse "f+0012" = .ok ⟨.basicEvent, 12⟩ := by
    have hdigits : Number.AreDigits [0, 0, 1, 2] := by
      unfold Number.AreDigits
      decide
    exact (hok _ _).mpr (.basicEvent (.plus hdigits (by decide)))
  refine ⟨hplus, hagain _ _ hplus, ?_, ?_⟩
  · have hread := (hlist _ _).mpr
      ⟨_, isStrings_print ["f+0012"], .cons hplus .nil⟩
    exact hlistAgain _ _ hread
  · have hstrings := isStrings_print ["s+1", "f131072", "x"]
    refine herror _ ["s+1"] "f131072" ["x"] _ hstrings ?_ (by decide)
    intro b hb
    cases List.mem_singleton.mp hb
    exact ⟨⟨.structural, 1⟩, by decide⟩

end RiskExchange.CutSet.TermCode
