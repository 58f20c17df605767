import RiskExchange.CutSet.SequenceLogic
import RiskExchange.Disk.Session
import RiskExchange.Json.Printer
import RiskExchange.Store.StoreError

/-! # Sequence stores — coded cut sets of many event trees in one file

    A store is a JSON object with one entry for each event tree. It may hold
    entries of any shape that something else wrote, and keeps them. A store in
    hand is a copy: what is inserted reaches the file when it is saved. -/

namespace RiskExchange.Store

open RiskExchange.CutSet (SequenceLogic TermCode)
open RiskExchange.Disk (Failure Path.parent? Session)
open RiskExchange.Json (Document Error Value)

/-- A store in hand: its file, its entries in order, and whether the file was
    there when it was opened. -/
structure SequenceStore where
  path : String
  entries : List (String × Value)
  onDisk : Bool

namespace SequenceStore

/-- The keys in order. -/
def keys (s : SequenceStore) : List String := s.entries.map (·.1)

/-! ## Opening -/

/-- The entries that a file holds. -/
def readEntries (path : String) (content : ByteArray) :
    Except StoreError (List (String × Value)) :=
  match (Document.read (Text.glyphs content)).value with
  | .error f => .error (.malformed path (.fault f))
  | .ok (.object entries) => .ok entries
  | .ok _ => .error (.notAnObject path)

/-- Opens the store of a file. A file that is not there is an empty store. -/
def openAt (path : String) : Session StoreError SequenceStore := do
  match ← Session.query (·.entryAt path) with
  | .ok (.file content) =>
    let entries ← Session.ofNoted (.ofExcept (readEntries path content))
    return ⟨path, entries, true⟩
  | .ok .directory =>
    Session.fail (.malformed path (.unreadable Failure.isDirectory.message))
  | .error .notFound =>
    Session.note (.startedEmptyStore path)
    return ⟨path, [], false⟩
  | .error e => Session.fail (.inaccessible path e.message)

/-! ## Entries -/

/-- The store with the entry of a logic added or replaced. -/
def insert (s : SequenceStore) (l : SequenceLogic) : SequenceStore :=
  { s with entries := Json.insertMember l.key l.toJson s.entries }

/-- The term code that a value holds. -/
def codeOf (v : Value) : Except Error TermCode :=
  match v with
  | .string s => match TermCode.parse s with
    | .ok c => .ok c
    | .error e => .error (.mismatch (.badText e.message))
  | v => .error (.mismatch (.wrongKind v.described "a string"))

/-- The list that a value holds. -/
def listOf {α : Type} (item : Value → Except Error α) (v : Value) :
    Except Error (List α) :=
  match v with
  | .array items => items.mapM item
  | v => .error (.mismatch (.wrongKind v.described "a sequence"))

/-- The coded cut sets under a key, if there is an entry. -/
def entry (s : SequenceStore) (key : String) :
    Except StoreError (Option (List (List TermCode))) :=
  match Json.lookupMember key s.entries with
  | none => .ok none
  | some v => match listOf (listOf codeOf) v with
    | .ok sequences => .ok (some sequences)
    | .error e => .error (.malformed s.path e)

/-! ## Saving -/

/-- What the file of a saved store holds. -/
def content (s : SequenceStore) : ByteArray :=
  (Json.printObject s.entries).toUTF8

/-- The directories above the file are made if they are missing. -/
def prepare (s : SequenceStore) (d : Disk) : Disk × Except Failure Unit :=
  match Disk.Path.parent? s.path with
  | none => (d, .ok ())
  | some up => d.createDirAll up

/-- Writes the store to its file. -/
def save (s : SequenceStore) : Session StoreError Unit :=
  Session.mapError (fun e => .inaccessible s.path (Failure.message e)) do
    Session.step s.prepare
    Session.change (·.writeFile s.path s.content)

/-- Puts the file back as it was when the store was opened: written if it was
    there, removed if it was not. -/
def rollback (s : SequenceStore) : Session StoreError Unit :=
  if s.onDisk then s.save
  else Session.change fun d =>
    match d.removeFile s.path with
    | .ok removed => .ok removed
    | .error .notFound => .ok d
    | .error e => .error (.inaccessible s.path e.message)

/-- The notice about a logic that has been saved. -/
def persistedNotice (path : String) (l : SequenceLogic) : Journal.Notice :=
  .persisted l.sequences.length l.key path

/-- Adds the entry of a logic to the store of a file. -/
def persist (path : String) (l : SequenceLogic) : Session StoreError Unit := do
  let s ← openAt path
  (s.insert l).save
  Session.note (persistedNotice path l)

/-! ## Equality -/

/-- Stores of one path with equal entries, in whatever order, that were both
    there or both not when they were opened. -/
def same (a b : SequenceStore) : Bool :=
  Disk.Path.same a.path b.path && Json.sameEntries a.entries b.entries
    && a.onDisk == b.onDisk

end SequenceStore
end RiskExchange.Store
