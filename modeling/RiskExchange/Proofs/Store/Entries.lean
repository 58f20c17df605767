import RiskExchange.Proofs.CutSet.TermCode
import RiskExchange.Proofs.Json.Rereading
import RiskExchange.Store.SequenceStore

/-! # Entries of stores — what saving and opening again makes of them

    The entries of a store that was opened are storable, inserting keeps them
    so, and what is saved of storable entries can be opened again
    (`readEntries_content`). The keys are the same then, and so is what is
    decoded under each of them (`toOption_entry_reread`). -/

namespace RiskExchange.Store.SequenceStore

open RiskExchange.CutSet (SequenceLogic TermCode)
open RiskExchange.Json

variable {s t : SequenceStore} {path : String} {c : ByteArray}
  {entries : List (String × Value)} {l : SequenceLogic}

/-! ## Saved stores can be opened again -/

/-- The file of a store holds what is printed. -/
theorem glyphs_toUTF8 (s : String) :
    Text.glyphs s.toUTF8 = asGlyphs s.toList := by
  have hread : String.fromUTF8? s.toUTF8 = some s := dif_pos s.isValidUTF8
  rw [Text.glyphs, hread]
  rfl

/-- Entries that a store may hold. -/
def Storable (entries : List (String × Value)) : Prop :=
  (Value.object entries).Storable depthLimit

/-- What is read from a file is storable. -/
theorem storable_of_readEntries (h : readEntries path c = .ok entries) :
    Storable entries := by
  rw [readEntries] at h
  cases hv : (Document.read (Text.glyphs c)).value with
  | error f =>
      rw [hv] at h
      exact nomatch h
  | ok v =>
      rw [hv] at h
      have hs := storable_of_value hv
      cases v with
      | object members =>
          cases h
          exact hs
      | null => exact nomatch h
      | bool b => exact nomatch h
      | number n => exact nomatch h
      | string s => exact nomatch h
      | array items => exact nomatch h

/-- Storable entries that are saved are read again. -/
theorem readEntries_content (h : Storable s.entries) :
    readEntries path s.content = .ok (rereadMembers s.entries) := by
  have hvalue := value_read_print h
  rw [readEntries, content, printObject]
  rw [glyphs_toUTF8, String.toList_ofList, hvalue]
  rfl

theorem nodup_keys (h : Storable s.entries) : s.keys.Nodup := by
  rw [Storable] at h
  generalize hd : depthLimit = depth at h
  cases h with
  | object _ hn _ => exact hn

/-- The JSON value of a logic nests to two levels. -/
private theorem storable_toJson (l : SequenceLogic) {depth : Nat}
    (hd : 2 < depth) : l.toJson.Storable depth := by
  refine .array (by omega) ?_
  intro v hv
  obtain ⟨codes, -, rfl⟩ := List.mem_map.mp hv
  refine .array (by omega) ?_
  intro w hw
  obtain ⟨code, -, rfl⟩ := List.mem_map.mp hw
  exact .string code.text

/-- Inserting keeps entries storable. -/
theorem storable_insert (h : Storable s.entries) (l : SequenceLogic) :
    Storable (s.insert l).entries := by
  rw [Storable] at h ⊢
  have hlimit : 3 < depthLimit := by decide
  generalize depthLimit = depth at h hlimit
  cases h with
  | object hd hn hm =>
      refine .object hd (nodup_names_insertMember hn l.key l.toJson) ?_
      intro m hmem
      rcases mem_insertMember hmem with rfl | hmem
      · exact storable_toJson l (by omega)
      · exact hm m hmem

/-! ## Keys -/

/-- A new key goes behind the others, a known one keeps its place. -/
theorem keys_insert (s : SequenceStore) (l : SequenceLogic) :
    (s.insert l).keys
      = if l.key ∈ s.keys then s.keys else s.keys ++ [l.key] :=
  names_insertMember l.key l.toJson s.entries

/-! ## Decoded entries -/

private theorem toOption_listOf_reread {α : Type}
    {f : Value → Except Error α}
    (hf : ∀ v, (f v.reread).toOption = (f v).toOption) (v : Value) :
    (listOf f v.reread).toOption = (listOf f v).toOption := by
  cases v with
  | array items =>
      rw [Value.reread, rereadItems_eq_map]
      exact toOption_mapM_map hf items
  | null => rfl
  | bool b => rfl
  | number n => rfl
  | string s => rfl
  | object members => rfl

private theorem toOption_codeOf_reread (v : Value) :
    (codeOf v.reread).toOption = (codeOf v).toOption := by
  cases v <;> rfl

/-- The sequences that a value holds, if it is of their shape. -/
def decoded (v : Value) : Option (List (List TermCode)) :=
  (listOf (listOf codeOf) v).toOption

theorem decoded_reread (v : Value) : decoded v.reread = decoded v :=
  toOption_listOf_reread (toOption_listOf_reread toOption_codeOf_reread) v

/-- What an entry is decoded to: nothing for want of an entry, or the
    sequences; no more is said of an entry of another shape. -/
theorem toOption_entry (s : SequenceStore) (key : String) :
    (s.entry key).toOption = match lookupMember key s.entries with
      | none => some none
      | some v => (decoded v).map some := by
  unfold entry decoded
  cases lookupMember key s.entries with
  | none => rfl
  | some v =>
      dsimp only
      cases listOf (listOf codeOf) v with
      | error e => rfl
      | ok sequences => rfl

/-- Saving and opening again changes nothing that can be decoded. -/
theorem toOption_entry_reread (h : t.entries = rereadMembers s.entries)
    (key : String) : (t.entry key).toOption = (s.entry key).toOption := by
  rw [toOption_entry, toOption_entry, h, rereadMembers_eq_map,
    lookupMember_map]
  cases lookupMember key s.entries with
  | none => rfl
  | some v => exact congrArg (Option.map some) (decoded_reread v)

/-- The second store has the keys of the first one in their order, and what is
    decoded under each key is the same. -/
structure Agrees (s t : SequenceStore) : Prop where
  keys : t.keys = s.keys
  entry : ∀ key, (t.entry key).toOption = (s.entry key).toOption

theorem Agrees.refl (s : SequenceStore) : Agrees s s :=
  ⟨rfl, fun _ => rfl⟩

/-- A store that is saved and opened again agrees with itself. -/
theorem agrees_of_reread (h : t.entries = rereadMembers s.entries) :
    Agrees s t := by
  refine ⟨?_, toOption_entry_reread h⟩
  rw [SequenceStore.keys, h]
  exact names_rereadMembers s.entries

theorem agrees_of_entries (h : t.entries = s.entries) : Agrees s t := by
  refine ⟨congrArg Json.names h, fun key => ?_⟩
  rw [toOption_entry, toOption_entry, h]

/-- A key that was there is there after inserting. -/
theorem mem_keys_insert {key : String} (h : key ∈ s.keys)
    (l : SequenceLogic) : key ∈ (s.insert l).keys := by
  rw [keys_insert]
  by_cases hl : l.key ∈ s.keys
  · rw [if_pos hl]
    exact h
  · rw [if_neg hl]
    exact List.mem_append_left _ h

/-- Inserting changes no entry under another key. -/
theorem toOption_entry_insert_of_ne {key : String} (h : key ≠ l.key) :
    ((s.insert l).entry key).toOption = (s.entry key).toOption := by
  rw [toOption_entry, toOption_entry]
  change (match lookupMember key (insertMember l.key l.toJson s.entries) with
    | none => _ | some v => _) = _
  rw [lookupMember_insertMember, if_neg h]

/-- The JSON value of a logic is decoded to its sequences. -/
theorem decoded_toJson (l : SequenceLogic) :
    decoded l.toJson = some l.sequences := by
  have hcode (code : TermCode) : codeOf code.toJson = .ok code := by
    unfold TermCode.toJson codeOf
    dsimp only
    rw [TermCode.parse_text]
  have hcodes (codes : List TermCode) :
      listOf codeOf (.array (codes.map TermCode.toJson)) = .ok codes :=
    mapM_map_eq_ok hcode codes
  have hall : listOf (listOf codeOf) l.toJson = .ok l.sequences :=
    mapM_map_eq_ok hcodes l.sequences
  rw [decoded, hall]
  rfl

/-- Under the key of an inserted logic its sequences are found. -/
theorem toOption_entry_insert_self (s : SequenceStore) (l : SequenceLogic) :
    ((s.insert l).entry l.key).toOption = some (some l.sequences) := by
  rw [toOption_entry]
  change (match lookupMember l.key (insertMember l.key l.toJson s.entries) with
    | none => _ | some v => _) = _
  rw [lookupMember_insertMember, if_pos rfl]
  change (decoded l.toJson).map some = _
  rw [decoded_toJson]
  rfl

end RiskExchange.Store.SequenceStore
