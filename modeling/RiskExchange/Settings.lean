import RiskExchange.Disk.Session
import RiskExchange.Text.Unsigned
import RiskExchange.Toml.Reader
import RiskExchange.Toml.Readable
import RiskExchange.Toml.StringPrinter

/-! # Settings — where coded cut sets go and how documents are laid out

    The settings live in a TOML file that names the version of its format. Keys
    of other names are ignored, keys that are left out have defaults, and a
    file that is not there stands for the defaults. -/

namespace RiskExchange

open RiskExchange.Disk (Failure Session)

/-- The settings of a conversion. -/
structure Settings where
  /-- The path of the sequence store. -/
  sequenceStore : String
  /-- The spaces of each level of a document; none for a single line. -/
  indent : Nat
  deriving DecidableEq, Repr

namespace Settings

/-- The settings of somebody who has none. -/
def defaults : Settings := ⟨"sequence_data.json", 2⟩

/-! ## Errors -/

/-- Why a TOML table holds no settings. -/
inductive Mismatch where
  | missingVersion
  /-- The version is no string. -/
  | versionKind (found : String)
  | unknownVersion (version : String)
  /-- A value is of another kind than expected. -/
  | wrongKind (found expected : String)
  | negativeIndent (n : Int)
  deriving DecidableEq, Repr

/-- The wording of a `Mismatch`. -/
def Mismatch.message : Mismatch → String
  | .missingVersion => "missing field `_version`"
  | .versionKind found =>
    "invalid type: " ++ found ++ ", expected variant identifier"
  | .unknownVersion version =>
    "unknown variant `" ++ version ++ "`, expected `1`"
  | .wrongKind found expected =>
    "invalid type: " ++ found ++ ", expected " ++ expected
  | .negativeIndent n =>
    "invalid value: integer `" ++ toString n ++ "`, expected usize"

/-- Why a file gives no settings. -/
inductive LoadError where
  /-- The file cannot be read; the cause in the system's words. -/
  | unreadable (cause : String)
  /-- The file is not TOML. -/
  | notToml
  | mismatch (m : Mismatch)
  deriving DecidableEq, Repr

/-- The wording of a `LoadError`. -/
def LoadError.message : LoadError → String
  | .unreadable cause => "Failed to read config file: " ++ cause
  | .notToml => "Failed to parse config file: not a TOML document"
  | .mismatch m => "Failed to parse config file: " ++ m.message

/-! ## Reading -/

/-- The format's only version. -/
def version : String := "1"

/-- The version is there and is the only one. -/
def checkVersion (table : Toml.Members) : Except Mismatch Unit :=
  match Toml.lookup "_version" table with
  | none => .error .missingVersion
  | some (.string s) =>
    if s = version then .ok () else .error (.unknownVersion s)
  | some v => .error (.versionKind v.described)

/-- The indent of a table. -/
def indentOf (table : Toml.Members) : Except Mismatch Nat :=
  match Toml.lookup "indent" table with
  | none => .ok defaults.indent
  | some (.integer n) =>
    if n < 0 then .error (.negativeIndent n) else .ok n.toNat
  | some v => .error (.wrongKind v.described "usize")

/-- The path of the sequence store of a table. -/
def storeOf (table : Toml.Members) : Except Mismatch String :=
  match Toml.lookup "sequence_store" table with
  | none => .ok defaults.sequenceStore
  | some (.string s) => .ok s
  | some v => .error (.wrongKind v.described "path string")

/-- The settings of a table. -/
def ofTable (table : Toml.Members) : Except Mismatch Settings := do
  checkVersion table
  let indent ← indentOf table
  return ⟨← storeOf table, indent⟩

/-- The integers of settings have 64 bits, with a sign or without. -/
def isWord (n : Int) : Bool :=
  -(Nat.pow 2 63 : Int) ≤ n && n < Nat.pow 2 64

/-- The settings of a text. What makes a document unreadable on its own is let
    pass if nothing is wrong with the settings. -/
def ofText (text : String) : Except LoadError Settings :=
  match Toml.read? text with
  | none => .error .notToml
  | some table =>
    if !Toml.allIntegersAt isWord table then .error .notToml
    else match ofTable table with
      | .ok s => .ok s
      | .error m =>
        if Toml.membersReadable table then .error (.mismatch m)
        else .error .notToml

/-- The settings of a file. -/
def load (path : String) : Session LoadError Settings := do
  match ← Session.query (·.readText path) with
  | .ok text => Session.ofNoted (.ofExcept (ofText text))
  | .error e => Session.fail (.unreadable e.message)

/-- The settings of a file; the defaults if the file is not there. -/
def loadOrDefault (path : String) : Session LoadError Settings := do
  match ← Session.query (·.readText path) with
  | .ok text => Session.ofNoted (.ofExcept (ofText text))
  | .error .notFound =>
    Session.note (.usingDefaults path)
    return defaults
  | .error e => Session.fail (.unreadable e.message)

/-! ## Writing -/

/-- The settings as a TOML document. -/
def render (s : Settings) : String :=
  "_version = \"1\"\nsequence_store = "
    ++ String.ofList (Toml.printString s.sequenceStore.toList)
    ++ "\nindent = " ++ toString s.indent ++ "\n"

/-- Why settings are not saved. -/
inductive SaveError where
  /-- The path of the store is no text. -/
  | pathNotText
  /-- The file cannot be written; the cause in the system's words. -/
  | unwritable (cause : String)
  deriving DecidableEq, Repr

/-- The wording of a `SaveError`. -/
def SaveError.message : SaveError → String
  | .pathNotText =>
    "Failed to serialize config: path contains invalid UTF-8 characters"
  | .unwritable cause => "Failed to write config file: " ++ cause

/-- The TOML document of settings whose store path is given in bytes. The
    system allows any bytes in a path, and TOML holds texts only. -/
def document (store : ByteArray) (indent : Nat) : Except SaveError String :=
  match String.fromUTF8? store with
  | some s => .ok (render ⟨s, indent⟩)
  | none => .error .pathNotText

/-- Writes settings whose store path is given in bytes to a file. -/
def saveBytes (store : ByteArray) (indent : Nat) (path : String) :
    Session SaveError Unit := do
  let text ← Session.ofNoted (.ofExcept (document store indent))
  Session.change fun d =>
    match d.writeFile path text.toUTF8 with
    | .ok written => .ok written
    | .error e => .error (.unwritable e.message)

/-- Writes the settings to a file. -/
def save (s : Settings) (path : String) : Session SaveError Unit :=
  saveBytes s.sequenceStore.toUTF8 s.indent path

end Settings
end RiskExchange
