import RiskExchange.Json.Value

/-! # Decoders — records read straight from a tree

    A decoder reads one shape and fails with the first problem from left to
    right. Records may be objects, in any order of members and with members of
    other names passed over, or arrays of their fields in declaration order. -/

namespace RiskExchange.Json

/-- Reads a value of one shape that may nest to fewer than the given number of
    levels. -/
abbrev Decoder (α : Type) := Nat → Tree → Except Error α

/-- A fault as a decoding error. -/
def liftFault {α : Type} : Except Fault α → Except Error α
  | .ok a => .ok a
  | .error f => .error (.fault f)

/-- The error of a value of the wrong kind. Its literal is read first, so that
    a fault inside it is what is reported; brackets are not looked into. -/
def wrongKind {α : Type} (expected : String) : Tree → Except Error α
  | .null => .error (.mismatch (.wrongKind "null" expected))
  | .bool b => .error (.mismatch (.wrongKind (Value.bool b).described expected))
  | .number n => do
    let x ← liftFault n.read
    throw (.mismatch (.wrongKind x.described expected))
  | .string s => do
    let text ← liftFault s.read
    throw (.mismatch (.wrongKind (Value.string text).described expected))
  | .array _ _ => .error (.mismatch (.wrongKind "sequence" expected))
  | .object _ _ => .error (.mismatch (.wrongKind "map" expected))
  | .broken b => .error (.fault b.kept)

/-- Fails if there is a fault. -/
def checkClose (fault : Option Fault) : Except Error Unit :=
  liftFault (check fault)

namespace Decoder

variable {α β : Type}

/-- Any value. -/
def value : Decoder Value := fun depth t => liftFault (t.read depth)

/-- A string. -/
def string : Decoder String := fun _ t =>
  match t with
  | .string s => liftFault s.read
  | t => wrongKind "a string" t

/-- `null`, or a value of the given shape. -/
def nullable (d : Decoder α) : Decoder (Option α) := fun depth t =>
  match t with
  | .null => .ok none
  | t => return some (← d depth t)

/-- The elements of an array, read from left to right. -/
def items (d : Decoder α) (depth : Nat) : List Tree → Except Error (List α)
  | [] => .ok []
  | t :: rest => do
    let a ← d depth t
    return a :: (← items d depth rest)

/-- An array of values of the given shape. -/
def list (d : Decoder α) : Decoder (List α) := fun depth t =>
  match t with
  | .array ts close => do
    if depth ≤ 1 then throw (.fault .tooDeep)
    let as ← items d (depth - 1) ts
    checkClose close.listFault?
    return as
  | t => wrongKind "a sequence" t

/-- `null`, standing for the empty list, or an array. -/
def listOrNull (d : Decoder α) : Decoder (List α) := fun depth t =>
  return ((← nullable d.list depth t).getD [])

/-- A value that is read whole and then judged. -/
def judged (judge : Value → Except Mismatch α) : Decoder α := fun depth t => do
  let v ← value depth t
  match judge v with
  | .ok a => return a
  | .error m => throw (.mismatch m)

/-- A string that is judged. -/
def text (judge : String → Except Mismatch α) : Decoder α := fun depth t => do
  let s ← string depth t
  match judge s with
  | .ok a => return a
  | .error m => throw (.mismatch m)

end Decoder

/-! ## Records -/

/-- A field of a record that is read into a draft of type `σ`. -/
structure Field (σ : Type) where
  name : String
  /-- A record written as an array may end before this field. -/
  optional : Bool
  /-- The field has been read. -/
  filled : σ → Bool
  /-- Reads the field's value and says how to put it into a draft. -/
  read : Nat → Tree → Except Error (σ → σ)

/-- A field of a draft: where its value is kept, and how it is decoded. -/
def Field.make {σ α : Type} (name : String) (optional : Bool)
    (get : σ → Option α) (set : α → σ → σ) (d : Decoder α) : Field σ where
  name := name
  optional := optional
  filled s := (get s).isSome
  read depth t := return set (← d depth t)

/-- A field that must be present. -/
def Field.required {σ α : Type} (name : String) (get : σ → Option α)
    (set : α → σ → σ) (d : Decoder α) : Field σ :=
  .make name false get set d

/-- A field that may be left out. -/
def Field.withDefault {σ α : Type} (name : String) (get : σ → Option α)
    (set : α → σ → σ) (d : Decoder α) : Field σ :=
  .make name true get set d

/-- The value of a required field, once all members have been read. -/
def require {α : Type} (name : String) : Option α → Except Error α
  | some a => .ok a
  | none => .error (.mismatch (.missingField name))

/-- The shape of a record: its fields in declaration order, the empty draft and
    the record of a finished draft. -/
structure RecordShape (σ α : Type) where
  name : String
  fields : List (Field σ)
  empty : σ
  finish : σ → Except Error α

namespace RecordShape

variable {σ α : Type}

/-- Reads one member into a draft. A second member of the same name is refused
    before its value is looked at; a name that is no field's is passed over. -/
def readMember (r : RecordShape σ α) (depth : Nat) (draft : σ)
    (m : StringLiteral × Tree) : Except Error σ := do
  let name ← liftFault m.1.read
  match r.fields.find? (·.name == name) with
  | some field =>
    if field.filled draft then throw (.mismatch (.duplicateField name))
    let put ← field.read depth m.2
    return put draft
  | none =>
    liftFault m.2.pass
    return draft

/-- Reads the members of an object from left to right. -/
def readMembers (r : RecordShape σ α) (depth : Nat) :
    σ → List (StringLiteral × Tree) → Except Error σ
  | draft, [] => .ok draft
  | draft, m :: rest => do
    let draft ← r.readMember depth draft m
    readMembers r depth draft rest

/-- The fault of an array that goes on, or does not end, after the last field
    of a record. -/
def afterLastField (items : List Tree) (close : Close) : Option Fault :=
  if !items.isEmpty then some .trailingCharacters
  else match close with
    | .unexpected => some .trailingCharacters
    | close => close.listFault?

/-- Reads the fields of a record from the elements of an array, given how many
    have been read before. -/
def readElements (r : RecordShape σ α) (depth : Nat) (close : Close) :
    Nat → σ → List (Field σ) → List Tree → Except Error σ
  | _, draft, [], ts => do
    checkClose (afterLastField ts close)
    return draft
  | index, draft, field :: fields, t :: ts => do
    let put ← field.read depth t
    readElements r depth close (index + 1) (put draft) fields ts
  | index, draft, field :: fields, [] => do
    checkClose close.listFault?
    if field.optional then
      readElements r depth close (index + 1) draft fields []
    else throw (.mismatch (.tooShort index r.name r.fields.length))

/-- Reads a record. -/
def decode (r : RecordShape σ α) : Decoder α := fun depth t =>
  match t with
  | .object members close => do
    if depth ≤ 1 then throw (.fault .tooDeep)
    let draft ← r.readMembers (depth - 1) r.empty members
    checkClose close.objectFault?
    r.finish draft
  | .array ts close => do
    if depth ≤ 1 then throw (.fault .tooDeep)
    let draft ← r.readElements (depth - 1) close 0 r.empty r.fields ts
    r.finish draft
  | t => wrongKind ("struct " ++ r.name) t

end RecordShape

/-- Decodes a whole text. -/
def Document.decode {α : Type} (d : Decoder α) (doc : Document) :
    Except Error α := do
  let a ← d depthLimit doc.root
  if doc.trailing then throw (.fault .trailingCharacters)
  return a

end RiskExchange.Json
