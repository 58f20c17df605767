import RiskExchange.Proofs.Number.Digits
import RiskExchange.Proofs.Toml.Strings
import RiskExchange.Toml.Reader

/-! # Lines — a document of plain lines is read as its keys and values

    A line holds a key without quotes and a value up to its end. Each line is
    one statement (`readStatement_line`), and as long as no key is written
    twice the table of the document holds the values in the order of the lines
    (`read?_document`). -/

namespace RiskExchange.Toml

open RiskExchange.Number
open RiskExchange.Text (digit?)

variable {c d : Char} {s text rest : List Char} {ds : List Nat}
  {key : String} {v : Value}

/-! ## Values -/

/-- At the end of a line the text is read as the value. -/
def SpellsValue (v : Value) (text : List Char) : Prop :=
  ∀ steps depth rest,
    readValue (steps + 1) depth (skipSpace (text ++ '\n' :: rest))
      = some (v, '\n' :: rest)

/-- Only a text with a quote in front is read as a string. -/
theorem readString?_eq_some {t : List Char}
    (h : readString? s = some (t, rest)) :
    ∃ q more, s = q :: more ∧ (q = '"' ∨ q = '\'') := by
  rw [readString?.eq_def] at h
  split at h
  · exact ⟨_, _, rfl, .inl rfl⟩
  · exact ⟨_, _, rfl, .inr rfl⟩
  · rw [readLine?.eq_def] at h
    split at h
    · exact ⟨_, _, rfl, .inl rfl⟩
    · exact ⟨_, _, rfl, .inr rfl⟩
    · exact nomatch h

theorem readString?_eq_none (hdouble : c ≠ '"') (hsingle : c ≠ '\'') :
    readString? (c :: s) = none := by
  refine Option.eq_none_iff_forall_ne_some.mpr fun (t, rest) h => ?_
  obtain ⟨q, more, heq, hq⟩ := readString?_eq_some h
  obtain ⟨rfl, -⟩ := List.cons.inj heq
  exact hq.elim hdouble hsingle

theorem readValue_string {t : List Char} (h : readString? s = some (t, rest))
    (steps depth : Nat) :
    readValue (steps + 1) depth (skipSpace s)
      = some (.string (String.ofList t), rest) := by
  obtain ⟨q, more, rfl, rfl | rfl⟩ := readString?_eq_some h
  · simp [readValue, skipSpace, isSpace, h]
  · simp [readValue, skipSpace, isSpace, h]

theorem spellsValue_string (s : String) :
    SpellsValue (.string s) (printString s.toList) := by
  intro steps depth rest
  have hread : readString? (printString s.toList ++ '\n' :: rest)
      = some (s.toList, '\n' :: rest) :=
    readString?_printString s.toList (by simp) (by simp)
  rw [readValue_string hread, String.ofList_toList]

/-- A character that passes a test is not one that fails it. -/
theorem ne_of_passes {p : Char → Bool} (hc : p c = true) (hd : p d = false) :
    c ≠ d := by
  rintro rfl
  exact nomatch hc.symm.trans hd

theorem isScalarChar_of_isDigit (hc : c.isDigit = true) :
    isScalarChar c = true := by
  have hne (d : Char) (hd : d.isDigit = false) : c ≠ d := ne_of_passes hc hd
  simp [isScalarChar, isSpace, hne]

theorem groupedDigits_digitChars (h : AreDigits ds) {after : Bool}
    (hds : after = true ∨ ds ≠ []) :
    groupedDigits digit? after (digitChars ds) = some ds := by
  induction ds generalizing after with
  | nil => simpa [digitChars, groupedDigits] using hds
  | cons d ds ih =>
      have hd : d < 10 := h d (List.mem_cons_self ..)
      have hne : Nat.digitChar d ≠ '_' := by
        have hall : ∀ d < 10, Nat.digitChar d ≠ '_' := by decide
        exact hall d hd
      have hlater := ih h.tail (.inl rfl)
      rw [digitChars, List.map_cons, groupedDigits, if_neg hne,
        digit?_digitChar hd]
      rw [digitChars] at hlater
      rw [hlater]
      rfl

theorem wholeDigits?_toDigits (n : Nat) :
    wholeDigits? (Nat.toDigits 10 n) = some (decimalDigits n) := by
  have hread : groupedDigits digit? false (digitChars (decimalDigits n))
      = some (decimalDigits n) :=
    groupedDigits_digitChars (areDigits_decimalDigits n)
      (.inr (decimalDigits_ne_nil n))
  rw [digitChars_decimalDigits] at hread
  have hfront :
      ¬ ((decimalDigits n).length ≠ 1 ∧ (decimalDigits n).head? = some 0) := by
    rintro ⟨hlength, hhead⟩
    by_cases hn : n = 0
    · rw [hn, decimalDigits_zero] at hlength
      exact hlength rfl
    · obtain ⟨more, hmore⟩ := List.head?_eq_some_iff.mp hhead
      exact head_decimalDigits hn hmore rfl
  rw [wholeDigits?, hread]
  exact if_neg hfront

/-- What is no digit does not begin a number. -/
theorem toDigits_ne {n : Nat} (hd : d.isDigit = false) :
    Nat.toDigits 10 n ≠ d :: s := fun h =>
  ne_of_passes (isDigit_of_mem (h ▸ List.mem_cons_self ..)) hd rfl

theorem takeSign_toDigits (n : Nat) :
    takeSign (Nat.toDigits 10 n) = (false, Nat.toDigits 10 n) := by
  rw [takeSign]
  · exact fun _ => toDigits_ne rfl
  · exact fun _ => toDigits_ne rfl

theorem integer?_toDigits (n : Nat) :
    integer? (Nat.toDigits 10 n) = some (n : Int) := by
  have hsecond (b : Char) (hb : b.isDigit = false) (more : List Char) :
      Nat.toDigits 10 n ≠ '0' :: b :: more := by
    intro h
    have hmem : b ∈ Nat.toDigits 10 n :=
      h ▸ List.mem_cons_of_mem _ (List.mem_cons_self ..)
    exact ne_of_passes (isDigit_of_mem hmem) hb rfl
  have hvalue : digitsValue 10 (decimalDigits n) = n :=
    digitsValue_decimalDigits n
  rw [integer?, takeSign_toDigits]
  · simp [wholeDigits?_toDigits, hvalue]
  · exact hsecond 'x' rfl
  · exact hsecond 'o' rfl
  · exact hsecond 'b' rfl

theorem scalar?_toDigits (n : Nat) :
    scalar? (Nat.toDigits 10 n) = some (.integer n) := by
  rw [scalar?, if_neg (toDigits_ne rfl), if_neg (toDigits_ne rfl),
    integer?_toDigits]

theorem takeScalar_append (h : ∀ c ∈ s, isScalarChar c = true) :
    takeScalar (s ++ '\n' :: rest) = (s, '\n' :: rest) := by
  have htake : (s ++ '\n' :: rest).takeWhile isScalarChar = s := by
    rw [List.takeWhile_append_of_pos h]
    exact List.append_nil s
  have hdrop : (s ++ '\n' :: rest).dropWhile isScalarChar = '\n' :: rest :=
    List.dropWhile_append_of_pos h
  rw [takeScalar, htake, hdrop]
  cases isDate s <;> rfl

theorem spellsValue_integer (n : Nat) :
    SpellsValue (.integer n) (Nat.toDigits 10 n) := by
  intro steps depth rest
  have htake : takeScalar (Nat.toDigits 10 n ++ '\n' :: rest)
      = (Nat.toDigits 10 n, '\n' :: rest) :=
    takeScalar_append fun c hc => isScalarChar_of_isDigit (isDigit_of_mem hc)
  have hvalue := scalar?_toDigits n
  obtain ⟨c, more, htext⟩ :=
    List.exists_cons_of_ne_nil (Nat.toDigits_ne_nil (b := 10) (n := n))
  have hc : c.isDigit = true := isDigit_of_mem (htext ▸ List.mem_cons_self ..)
  have hne (d : Char) (hd : d.isDigit = false) : c ≠ d := ne_of_passes hc hd
  have hspace : skipSpace (c :: (more ++ '\n' :: rest))
      = c :: (more ++ '\n' :: rest) := by
    simp [skipSpace, isSpace, hne]
  rw [htext, List.cons_append] at htake
  rw [htext, List.cons_append, hspace, readValue]
  · rw [readString?_eq_none (hne _ rfl) (hne _ rfl), htake, ← htext]
    simp [hvalue]
  · exact fun _ h => hne '[' rfl (List.cons.inj h).1
  · exact fun _ h => hne '\x7b' rfl (List.cons.inj h).1

/-! ## Lines -/

/-- A key that may stand without quotes. -/
structure IsBareKey (key : String) : Prop where
  nonempty : key.toList ≠ []
  bare : ∀ c ∈ key.toList, isBare c = true

theorem IsBareKey.of_all (hne : key.toList.isEmpty = false)
    (h : key.toList.all isBare = true) : IsBareKey key :=
  ⟨List.isEmpty_eq_false_iff.mp hne, List.all_eq_true.mp h⟩

/-- A line with a key and the text of a value. -/
def line (key : String) (text : List Char) : List Char :=
  key.toList ++ ' ' :: '=' :: ' ' :: (text ++ ['\n'])

theorem IsBareKey.exists_cons (hkey : IsBareKey key) :
    ∃ c more, key.toList = c :: more ∧ isBare c = true := by
  obtain ⟨c, more, hmore⟩ := List.exists_cons_of_ne_nil hkey.nonempty
  exact ⟨c, more, hmore, hkey.bare c (hmore ▸ List.mem_cons_self ..)⟩

theorem readKey_bare (hkey : IsBareKey key) (hd : isBare d = false) :
    readKey (key.toList ++ d :: rest) = some (key, d :: rest) := by
  have htake : (key.toList ++ d :: rest).takeWhile isBare = key.toList := by
    rw [List.takeWhile_append_of_pos hkey.bare]
    simp [hd]
  have hdrop : (key.toList ++ d :: rest).dropWhile isBare = d :: rest := by
    rw [List.dropWhile_append_of_pos hkey.bare]
    simp [hd]
  have hline : readLine? (key.toList ++ d :: rest) = none := by
    obtain ⟨c, more, hmore, hc⟩ := hkey.exists_cons
    rw [hmore, List.cons_append, readLine?]
    · exact fun _ h => ne_of_passes hc rfl (List.cons.inj h).1
    · exact fun _ h => ne_of_passes hc rfl (List.cons.inj h).1
  rw [readKey, hline]
  simp only [htake, hdrop, if_neg hkey.nonempty, String.ofList_toList]

theorem skipSpace_bare (hc : isBare c = true) : skipSpace (c :: s) = c :: s := by
  have hspace : c ≠ ' ' := ne_of_passes hc rfl
  have htab : c ≠ '\t' := ne_of_passes hc rfl
  simp [skipSpace, isSpace, hspace, htab]

theorem readPath_line (hkey : IsBareKey key) :
    readPath (key.toList ++ ' ' :: '=' :: rest) = some ([key], '=' :: rest) := by
  have hfront : skipSpace (key.toList ++ ' ' :: '=' :: rest)
      = key.toList ++ ' ' :: '=' :: rest := by
    obtain ⟨c, more, hmore, hc⟩ := hkey.exists_cons
    rw [hmore]
    exact skipSpace_bare hc
  rw [readPath, keyLimit, readPathUpTo, hfront, readKey_bare hkey rfl]
  rfl

/-- A line begins with the first character of its key. -/
theorem line_eq_cons (hkey : IsBareKey key) (text rest : List Char) :
    ∃ c more, line key text ++ rest = c :: more ∧ isBare c = true := by
  obtain ⟨c, more, hmore, hc⟩ := hkey.exists_cons
  rw [line, hmore]
  exact ⟨c, _, rfl, hc⟩

theorem readStatement_line (hkey : IsBareKey key) (hv : SpellsValue v text) :
    readStatement (line key text ++ rest)
      = some (.pair [key] v, '\n' :: rest) := by
  have hpath : readPath
      (key.toList ++ ' ' :: '=' :: ' ' :: (text ++ '\n' :: rest))
        = some ([key], '=' :: ' ' :: (text ++ '\n' :: rest)) :=
    readPath_line hkey
  have hline : line key text ++ rest
      = key.toList ++ ' ' :: '=' :: ' ' :: (text ++ '\n' :: rest) := by
    simp [line]
  have hbracket (more : List Char) :
      line key text ++ rest ≠ '[' :: more := by
    obtain ⟨c, front, hfront, hc⟩ := line_eq_cons hkey text rest
    rw [hfront]
    exact fun h => ne_of_passes hc rfl (List.cons.inj h).1
  have hvalue := hv (line key text ++ rest).length depthLimit rest
  rw [readStatement]
  · rw [← hline] at hpath
    simp only [hpath, Option.bind_eq_bind, Option.bind_some, behind?, if_pos]
    change (readValue _ _ (skipSpace (text ++ '\n' :: rest))).bind _ = _
    rw [hvalue]
    rfl
  · exact fun more => hbracket ('[' :: more)
  · exact hbracket

theorem skipFill_bare (hc : isBare c = true) :
    skipFill false (c :: s) = some (c :: s) := by
  have hspace : c ≠ ' ' := ne_of_passes hc rfl
  have htab : c ≠ '\t' := ne_of_passes hc rfl
  have hbreak : c ≠ '\n' := ne_of_passes hc rfl
  have hcomment : c ≠ '#' := ne_of_passes hc rfl
  rw [skipFill]
  · simp [isSpace, hspace, htab, hbreak, hcomment]
  · exact fun _ h => absurd h (ne_of_passes hc rfl)

/-- A line is one statement. -/
theorem readStatementsUpTo_line (hkey : IsBareKey key)
    (hv : SpellsValue v text) (n : Nat) :
    readStatementsUpTo (n + 1) (line key text ++ rest)
      = (readStatementsUpTo n rest).map (.pair [key] v :: ·) := by
  have hread : readStatement (line key text ++ rest)
      = some (.pair [key] v, '\n' :: rest) := readStatement_line hkey hv
  have hend : endLine false ('\n' :: rest) = some rest := rfl
  obtain ⟨c, more, hmore, hc⟩ := line_eq_cons hkey text rest
  rw [hmore] at hread ⊢
  rw [readStatementsUpTo, skipFill_bare hc]
  simp only [Option.bind_eq_bind, Option.bind_some, hread, hend]
  cases readStatementsUpTo n rest <;> rfl

/-! ## Tables -/

theorem lookup_eq_none_iff {ms : Members} :
    lookup key ms = none ↔ key ∉ ms.map Prod.fst := by
  induction ms with
  | nil => simp [lookup]
  | cons m ms ih =>
      rw [lookup]
      split
      next h => simp [h]
      next h => simp [ih, Ne.symm h]

theorem set_of_not_mem {ms : Members} (h : key ∉ ms.map Prod.fst) :
    set key v ms = ms ++ [(key, v)] := by
  induction ms with
  | nil => rfl
  | cons m ms ih =>
      rw [List.map_cons, List.mem_cons, not_or] at h
      rw [set, if_neg (Ne.symm h.1), ih h.2]
      rfl

/-- A key that is not there yet is added behind the others. -/
theorem Draft.apply_pair {ms : Members} (h : key ∉ ms.map Prod.fst) :
    Draft.apply ⟨ms, []⟩ (.pair [key] v) = some ⟨ms ++ [(key, v)], []⟩ := by
  have hset := set_of_not_mem (v := v) h
  rw [← lookup_eq_none_iff] at h
  simp [Draft.apply, changeAt, insertDotted, h, hset]

/-! ## Documents -/

/-- A key, the text of its value, and the value. -/
structure Entry where
  key : String
  text : List Char
  value : Value
  bare : IsBareKey key
  spells : SpellsValue value text

namespace Entry

/-- What the line of an entry states. -/
def statement (e : Entry) : Statement := .pair [e.key] e.value

/-- The entry in a table. -/
def member (e : Entry) : String × Value := (e.key, e.value)

end Entry

/-- A line for each entry. -/
def document (entries : List Entry) : List Char :=
  entries.flatMap fun e => line e.key e.text

theorem readStatementsUpTo_document (entries : List Entry) {n : Nat}
    (hn : entries.length < n) :
    readStatementsUpTo n (document entries)
      = some (entries.map Entry.statement) := by
  induction entries generalizing n with
  | nil =>
      obtain ⟨m, rfl⟩ : ∃ m, n = m + 1 := ⟨n - 1, by omega⟩
      rfl
  | cons e entries ih =>
      obtain ⟨m, rfl⟩ : ∃ m, n = m + 1 := ⟨n - 1, by omega⟩
      rw [List.length_cons, Nat.add_lt_add_iff_right] at hn
      rw [document, List.flatMap_cons, ← document,
        readStatementsUpTo_line e.bare e.spells, ih hn]
      rfl

theorem Draft.applyAll_statements (entries : List Entry) (ms : Members)
    (h : (ms.map Prod.fst ++ entries.map Entry.key).Nodup) :
    Draft.applyAll ⟨ms, []⟩ (entries.map Entry.statement)
      = some ⟨ms ++ entries.map Entry.member, []⟩ := by
  induction entries generalizing ms with
  | nil => simp [Draft.applyAll]
  | cons e entries ih =>
      have hfresh : e.key ∉ ms.map Prod.fst := by
        intro hmem
        have hapart := (List.nodup_append.mp h).2.2
        exact hapart _ hmem _ (List.mem_cons_self ..) rfl
      have hlater := ih (ms ++ [e.member]) (by simpa [Entry.member] using h)
      rw [List.map_cons, Draft.applyAll, Entry.statement,
        Draft.apply_pair hfresh]
      rw [List.append_assoc] at hlater
      exact hlater

theorem length_le_document (entries : List Entry) :
    entries.length ≤ (document entries).length := by
  induction entries with
  | nil => exact Nat.le_refl 0
  | cons e entries ih =>
      have hline : 0 < (line e.key e.text).length := by simp [line]
      rw [document, List.flatMap_cons, ← document, List.length_append,
        List.length_cons]
      omega

theorem dropMark_document (entries : List Entry) :
    dropMark (document entries) = document entries := by
  cases entries with
  | nil => rfl
  | cons e entries =>
      obtain ⟨c, more, hmore, hc⟩ :=
        line_eq_cons e.bare e.text (document entries)
      rw [document, List.flatMap_cons, ← document, hmore, dropMark]
      exact fun _ h => ne_of_passes hc rfl (List.cons.inj h).1

/-- A document of lines whose keys differ is read as the table of its
    entries. -/
theorem read?_document (entries : List Entry)
    (h : (entries.map Entry.key).Nodup) :
    read? (String.ofList (document entries))
      = some (entries.map Entry.member) := by
  have hstatements : readStatements (document entries)
      = some (entries.map Entry.statement) := by
    rw [readStatements, dropMark_document]
    exact readStatementsUpTo_document entries
      (Nat.lt_succ_of_le (length_le_document entries))
  rw [read?, String.toList_ofList, hstatements]
  simp [Draft.applyAll_statements entries [] h]

end RiskExchange.Toml
