import RiskExchange.Proofs.Disk.Sessions
import RiskExchange.Proofs.Toml.Lines
import RiskExchange.Settings

/-! # Settings — which texts hold settings, and what is saved is loaded again

    A text holds settings if its table has the version and nothing of a wrong
    kind in it, and the path and the indent are each taken from it or from the
    defaults (`ofText_eq_ok_iff`). The document of settings is three lines, each
    read back as it was meant (`ofText_render`), whatever characters the path
    of the store has. Only a path that is no text has no document
    (`document_eq_error_iff`), and without a document the disk is not touched
    (`saveBytes_of_error`). -/

namespace RiskExchange.Settings

open RiskExchange.Disk
open RiskExchange.Disk.Session

variable {s : Settings} {store : ByteArray} {indent : Nat} {path : String}
  {d d' : Disk} {e : SaveError}

/-! ## The document -/

theorem fromUTF8?_toUTF8 (s : String) : String.fromUTF8? s.toUTF8 = some s :=
  dif_pos s.isValidUTF8

/-- The lines of the document of settings. -/
def entries (s : Settings) : List Toml.Entry :=
  [⟨"_version", Toml.printString version.toList, .string version,
      .of_all rfl rfl, Toml.spellsValue_string version⟩,
    ⟨"sequence_store", Toml.printString s.sequenceStore.toList,
      .string s.sequenceStore,
      .of_all rfl rfl, Toml.spellsValue_string s.sequenceStore⟩,
    ⟨"indent", Nat.toDigits 10 s.indent, .integer s.indent,
      .of_all rfl rfl, Toml.spellsValue_integer s.indent⟩]

theorem render_eq (s : Settings) :
    render s = String.ofList (Toml.document s.entries) := by
  have hversion : Toml.printString version.toList = ['"', '1', '"'] := by
    decide
  have hindent : (toString s.indent).toList = Nat.toDigits 10 s.indent := by
    rw [Nat.toString_eq_repr, Nat.toList_repr]
  refine String.toList_inj.mp ?_
  unfold render
  simp only [String.toList_append, String.toList_ofList, hindent]
  simp [Toml.document, entries, Toml.line, hversion]

theorem read?_render (s : Settings) :
    Toml.read? (render s) = some
      [("_version", .string version),
        ("sequence_store", .string s.sequenceStore),
        ("indent", .integer s.indent)] := by
  have hkeys : (s.entries.map Toml.Entry.key).Nodup := by
    change ["_version", "sequence_store", "indent"].Nodup
    decide
  rw [render_eq, Toml.read?_document s.entries hkeys]
  rfl

/-- The table that the document of settings is read as. -/
theorem ofTable_members (s : Settings) :
    ofTable [("_version", .string version),
      ("sequence_store", .string s.sequenceStore),
      ("indent", .integer s.indent)] = .ok s := by
  simp [ofTable, checkVersion, indentOf, storeOf, Toml.lookup]
  rfl

/-- Settings whose indent is a word are read from their document. -/
theorem ofText_render (h : s.indent ≤ Text.maxWord64) :
    ofText (render s) = .ok s := by
  have hword : isWord s.indent = true := by
    have hmax : Text.maxWord64 = 2 ^ 64 - 1 := rfl
    have hpow : (Nat.pow 2 64 : Int) = 2 ^ 64 := rfl
    simp [isWord]
    omega
  rw [ofText, read?_render]
  simp [Toml.allIntegersAt, Toml.allIntegersOfMember, Toml.Value.allIntegers,
    hword, ofTable_members]

/-! ## Tables of settings -/

/-- The path of the sequence store that a table gives. -/
def givenStore (table : Toml.Members) : Option String :=
  match Toml.lookup "sequence_store" table with
  | some (.string s) => some s
  | _ => none

/-- The indent that a table gives. -/
def givenIndent (table : Toml.Members) : Option Nat :=
  match Toml.lookup "indent" table with
  | some (.integer n) => some n.toNat
  | _ => none

/-- The table holds settings: the version is the only one there is, the path
    and the indent are of their kinds if they are given, and the integers have
    64 bits. -/
structure Holds (table : Toml.Members) : Prop where
  version : Toml.lookup "_version" table = some (.string "1")
  store : ∀ v, Toml.lookup "sequence_store" table = some v →
    ∃ s, v = .string s
  indent : ∀ v, Toml.lookup "indent" table = some v →
    ∃ n : Nat, v = .integer n
  integers : Toml.allIntegersAt isWord table = true

theorem checkVersion_eq_ok_iff {table : Toml.Members} :
    checkVersion table = .ok () ↔
      Toml.lookup "_version" table = some (.string "1") := by
  unfold checkVersion
  split
  next h => simp [h]
  next v h =>
    rw [h]
    split_ifs with hv
    · simp [hv, version]
    · simpa [version] using hv
  next v hv h =>
    rw [h]
    constructor
    · exact fun h => nomatch h
    · intro heq
      exact absurd (Option.some.inj heq) (hv "1")

theorem storeOf_eq_ok_iff {table : Toml.Members} {path : String} :
    storeOf table = .ok path ↔
      (∀ v, Toml.lookup "sequence_store" table = some v →
        ∃ s, v = .string s) ∧
      path = (givenStore table).getD defaults.sequenceStore := by
  unfold storeOf givenStore
  cases Toml.lookup "sequence_store" table with
  | none => simp [eq_comm]
  | some v => cases v <;> simp [eq_comm]

theorem indentOf_eq_ok_iff {table : Toml.Members} {n : Nat} :
    indentOf table = .ok n ↔
      (∀ v, Toml.lookup "indent" table = some v →
        ∃ n : Nat, v = .integer n) ∧
      n = (givenIndent table).getD defaults.indent := by
  unfold indentOf givenIndent
  cases Toml.lookup "indent" table with
  | none => simp [eq_comm]
  | some v =>
      cases v with
      | integer k =>
          cases k with
          | ofNat m =>
              have hm : ¬ (Int.ofNat m < 0) := Int.not_lt.mpr (Int.natCast_nonneg m)
              simp only [if_neg hm]
              simp [eq_comm]
          | negSucc m =>
              simp only [if_pos (Int.negSucc_lt_zero m)]
              constructor
              · exact fun h => nomatch h
              · rintro ⟨h, -⟩
                obtain ⟨_, hm⟩ := h _ rfl
                cases hm
      | _ => simp

/-- A text holds settings if and only if it is TOML with a table that does, and
    what the table does not give is as in the defaults. -/
theorem ofText_eq_ok_iff {text : String} :
    ofText text = .ok s ↔ ∃ table, Toml.read? text = some table ∧
      Holds table ∧
      s = ⟨(givenStore table).getD defaults.sequenceStore,
        (givenIndent table).getD defaults.indent⟩ := by
  have htable {table : Toml.Members} : ofTable table = .ok s ↔
      checkVersion table = .ok () ∧ indentOf table = .ok s.indent ∧
        storeOf table = .ok s.sequenceStore := by
    constructor
    · intro h
      obtain ⟨_, hversion, h⟩ := bind_eq_ok h
      obtain ⟨n, hindent, h⟩ := bind_eq_ok h
      obtain ⟨path, hstore, h⟩ := bind_eq_ok h
      cases h
      exact ⟨hversion, hindent, hstore⟩
    · rintro ⟨hversion, hindent, hstore⟩
      rw [ofTable, hversion, ok_bind, hindent, ok_bind, hstore]
      rfl
  unfold ofText
  cases Toml.read? text with
  | none => simp
  | some table =>
      simp only [Option.some.injEq, exists_eq_left']
      cases hwords : Toml.allIntegersAt isWord table with
      | false =>
          constructor
          · exact fun h => nomatch h
          · rintro ⟨h, -⟩
            exact nomatch hwords.symm.trans h.integers
      | true =>
          have hholds : Holds table ∧
              s = ⟨(givenStore table).getD defaults.sequenceStore,
                (givenIndent table).getD defaults.indent⟩ ↔
              ofTable table = .ok s := by
            rw [htable, checkVersion_eq_ok_iff, indentOf_eq_ok_iff,
              storeOf_eq_ok_iff]
            constructor
            · rintro ⟨⟨hversion, hstore, hindent, -⟩, rfl⟩
              exact ⟨hversion, ⟨hindent, rfl⟩, hstore, rfl⟩
            · rintro ⟨hversion, ⟨hindent, hn⟩, hstore, hpath⟩
              refine ⟨⟨hversion, hstore, hindent, hwords⟩, ?_⟩
              obtain ⟨path, n⟩ := s
              simp only at hn hpath
              rw [hn, hpath]
          rw [hholds]
          cases ofTable table with
          | ok s' => simp
          | error m => cases Toml.membersReadable table <;> simp

/-! ## Which settings have a document -/

theorem document_toUTF8 (s : Settings) :
    document s.sequenceStore.toUTF8 s.indent = .ok (render s) := by
  rw [document, fromUTF8?_toUTF8]

/-- Only a path that is no text has no document. -/
theorem document_eq_error_iff : document store indent = .error e ↔
    e = .pathNotText ∧ ∀ t : String, store ≠ t.toUTF8 := by
  constructor
  · intro h
    have hnone : String.fromUTF8? store = none ∧ e = .pathNotText := by
      rw [document] at h
      split at h
      · exact nomatch h
      · exact ⟨‹_›, (Except.error.inj h).symm⟩
    refine ⟨hnone.2, ?_⟩
    rintro t rfl
    exact nomatch (fromUTF8?_toUTF8 t).symm.trans hnone.1
  · rintro ⟨rfl, hstore⟩
    have hnone : String.fromUTF8? store = none :=
      dif_neg fun h => hstore (String.fromUTF8 store h) rfl
    rw [document, hnone]

/-! ## Saving -/

/-- Without a document nothing is written. -/
theorem saveBytes_of_error (h : document store indent = .error e)
    (path : String) (d : Disk) :
    (saveBytes store indent path).outcome d = .error e ∧
      (saveBytes store indent path).after d = d := by
  have hdocument : (Session.ofNoted (.ofExcept (document store indent)) :
      Session SaveError String).outcome d = .error e := h
  exact ⟨outcome_bind_of_error hdocument, after_bind_of_error hdocument⟩

/-- Settings that are saved stand in the file of the path. -/
theorem save_eq_ok (h : (save s path).outcome d = .ok ()) :
    ∃ p, Leads d path p ∧ d.get? p ≠ some .directory ∧
      (save s path).after d = d.put p (.file (render s).toUTF8) := by
  have hdocument : (Session.ofNoted (.ofExcept
      (document s.sequenceStore.toUTF8 s.indent)) :
      Session SaveError String).outcome d = .ok (render s) :=
    document_toUTF8 s
  rw [save, saveBytes] at h ⊢
  rw [outcome_bind_of_ok hdocument] at h
  rw [after_bind_of_ok hdocument]
  have hwritten := eq_ok_of_change h
  split at hwritten
  next d' hw =>
    obtain ⟨p, hl, hd, heq⟩ := writeFile_eq_ok_iff.mp hw
    exact ⟨p, hl, hd, (Except.ok.inj hwritten).symm.trans heq⟩
  next => exact nomatch hwritten

/-! ## Loading -/

theorem outcome_readText {r : Except Failure String}
    (h : d.readText path = r) :
    (Session.query (·.readText path) :
      Session LoadError (Except Failure String)).outcome d = .ok r := by
  rw [outcome_query, h]

/-- Settings are loaded from the text of their file. -/
theorem load_of_readText {text : String} (h : d.readText path = .ok text) :
    (load path).outcome d = ofText text ∧
      (loadOrDefault path).outcome d = ofText text := by
  rw [load, loadOrDefault, outcome_bind_of_ok (outcome_readText h),
    outcome_bind_of_ok (outcome_readText h)]
  exact ⟨rfl, rfl⟩

/-- Settings that are not there are the defaults. -/
theorem loadOrDefault_of_notFound (h : d.readText path = .error .notFound) :
    (loadOrDefault path).outcome d = .ok defaults := by
  rw [loadOrDefault, outcome_bind_of_ok (outcome_readText h)]
  rfl

/-- A file that is there and cannot be read gives no settings. -/
theorem loadOrDefault_of_unreadable {f : Failure}
    (h : d.readText path = .error f) (hf : f ≠ .notFound) :
    (loadOrDefault path).outcome d = .error (.unreadable f.message) := by
  rw [loadOrDefault, outcome_bind_of_ok (outcome_readText h)]
  split
  next heq => exact nomatch heq
  next heq => exact absurd (Except.error.inj heq) hf
  next heq =>
    cases heq
    rfl

/-- Loading settings leaves the disk as it is. -/
theorem after_loadOrDefault (path : String) (d : Disk) :
    (loadOrDefault path).after d = d := by
  rw [loadOrDefault, after_bind_of_ok (outcome_readText rfl), after_query]
  cases d.readText path with
  | ok text => rfl
  | error f => cases f <;> rfl

/-- The file at the place of a path is read as its text. -/
theorem readText_put {p : Place} (hl : Leads d path p)
    (hd : d.get? p ≠ some .directory) (text : String) :
    (d.put p (.file text.toUTF8)).readText path = .ok text := by
  have hl' := hl.mono (KeepsDirectories.put d hl.ne_nil hd (.file text.toUTF8))
  have hfile : (d.put p (.file text.toUTF8)).readFile path
      = .ok text.toUTF8 := by
    rw [readFile, hl'.entryAt, get?_put_self d hl.ne_nil]
    rfl
  rw [readText, hfile, ok_bind, fromUTF8?_toUTF8]
  rfl

/-- Whatever stood at a path, settings that are saved there are loaded again
    as they were. Settings that have no document are not saved, and the disk
    stays as it was. -/
theorem saved_settings_load (path : String) (d : Disk) :
    (∀ s : Settings, s.indent ≤ Text.maxWord64 →
      (save s path).outcome d = .ok () →
        (load path).outcome ((save s path).after d) = .ok s ∧
        (loadOrDefault path).outcome ((save s path).after d) = .ok s) ∧
    ∀ store indent e, document store indent = .error e →
      (saveBytes store indent path).outcome d = .error e ∧
      (saveBytes store indent path).after d = d := by
  constructor
  · intro s hindent h
    obtain ⟨p, hl, hd, hafter⟩ := save_eq_ok h
    have hread : ((save s path).after d).readText path = .ok (render s) := by
      rw [hafter]
      exact readText_put hl hd (render s)
    obtain ⟨hload, hdefault⟩ := load_of_readText hread
    rw [hload, hdefault]
    exact ⟨ofText_render hindent, ofText_render hindent⟩
  · intro store indent e h
    exact saveBytes_of_error h path d

/-- Settings whose path no quotes can hold as it is, with the largest indent. -/
def manyQuotes : Settings where
  sequenceStore := "'''\"\"\"\\\n\x01"
  indent := Text.maxWord64

/-- A disk with a file that holds no settings. -/
def noSettings : Disk where
  entries := [(["c.toml"], .file "no settings".toUTF8)]
  here := []

theorem saved_settings_load_manyQuotes :
    manyQuotes.indent ≤ Text.maxWord64 ∧
    (save manyQuotes "c.toml").outcome noSettings = .ok () ∧
    (load "c.toml").outcome ((save manyQuotes "c.toml").after noSettings)
      = .ok manyQuotes ∧
    (loadOrDefault "c.toml").outcome
      ((save manyQuotes "c.toml").after noSettings) = .ok manyQuotes ∧
    document ⟨#[0xFF]⟩ 2 = .error .pathNotText ∧
    (saveBytes ⟨#[0xFF]⟩ 2 "c.toml").outcome noSettings
      = .error .pathNotText ∧
    (saveBytes ⟨#[0xFF]⟩ 2 "c.toml").after noSettings = noSettings := by
  obtain ⟨htexts, hbytes⟩ := saved_settings_load "c.toml" noSettings
  have hsaved : (save manyQuotes "c.toml").outcome noSettings = .ok () := by
    decide +kernel
  have hnone : document ⟨#[0xFF]⟩ 2 = .error .pathNotText := by
    decide +kernel
  obtain ⟨hload, hdefault⟩ := htexts manyQuotes (Nat.le_refl _) hsaved
  obtain ⟨herror, hkept⟩ := hbytes ⟨#[0xFF]⟩ 2 .pathNotText hnone
  exact ⟨Nat.le_refl _, hsaved, hload, hdefault, hnone, herror, hkept⟩

end RiskExchange.Settings
