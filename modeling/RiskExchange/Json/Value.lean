import RiskExchange.Json.Number
import RiskExchange.Json.Tree
import RiskExchange.Json.Error
import RiskExchange.Text.Quoted

/-! # Values — trees with their literals read

    A value keeps the order of its members; a repeated name keeps its first
    place and takes the last value. Reading a value checks what its spelling
    leaves open (numbers in range, escapes that form characters, at most 127
    levels of nesting), from left to right; passing over one checks only that
    it is well formed. -/

namespace RiskExchange.Json

/-- A JSON value. -/
inductive Value where
  | null
  | bool (b : Bool)
  | number (n : Number)
  | string (s : String)
  | array (items : List Value)
  | object (members : List (String × Value))
  deriving Repr

/-! ## Strings -/

/-- The code unit is the first half of a surrogate pair. -/
def isHighSurrogate (n : Nat) : Bool := 0xD800 ≤ n && n ≤ 0xDBFF

/-- The code unit is the second half of a surrogate pair. -/
def isLowSurrogate (n : Nat) : Bool := 0xDC00 ≤ n && n ≤ 0xDFFF

/-- The character of a surrogate pair. -/
def surrogatePair (high low : Nat) : Char :=
  Char.ofNat (0x10000 + (high - 0xD800) * 0x400 + (low - 0xDC00))

/-- The fault of a literal that lacks its closing quote. -/
def StringEnd.fault? : StringEnd → Option Fault
  | .closed => none
  | .endOfText => some .endInString
  | .control => some .controlCharacter
  | .badEscape | .badHexDigits => some .invalidEscape

/-- The fault where a surrogate pair should go on but the pieces end. -/
def StringEnd.faultInPair : StringEnd → Fault
  | .closed | .control | .badEscape => .surrogateCutShort
  | .endOfText => .endInString
  | .badHexDigits => .invalidEscape

/-- The characters of the pieces of a literal; a stray byte is found out only
    at the closing quote, so it is noted and reading goes on. -/
def readPieces (ending : StringEnd) :
    (clean : Bool) → List Piece → Except Fault (List Char)
  | clean, [] =>
    match ending.fault? with
    | some f => .error f
    | none => if clean then .ok [] else .error .invalidCodePoint
  | clean, .plain c :: rest => return c :: (← readPieces ending clean rest)
  | clean, .short c :: rest => return c :: (← readPieces ending clean rest)
  | _, .stray _ :: rest => readPieces ending false rest
  | clean, .unit n :: rest =>
    if isLowSurrogate n then .error .loneSurrogate
    else if isHighSurrogate n then
      match rest with
      | .unit m :: rest =>
        if isLowSurrogate m then
          return surrogatePair n m :: (← readPieces ending clean rest)
        else .error .loneSurrogate
      | [] => .error ending.faultInPair
      | _ => .error .surrogateCutShort
    else return Char.ofNat n :: (← readPieces ending clean rest)

/-- The text of a literal. -/
def StringLiteral.read (s : StringLiteral) : Except Fault String := do
  return String.ofList (← readPieces s.ending true s.pieces)

/-- The number of a literal. -/
def NumberLiteral.read (n : NumberLiteral) : Except Fault Number :=
  match Number.ofLiteral n with
  | some x => .ok x
  | none => .error .numberOutOfRange

/-! ## Closing brackets -/

/-- The fault of the end of an array whose elements are kept. -/
def Close.listFault? : Close → Option Fault
  | .closed => none
  | .endOfText | .endAfterComma => some .endInList
  | .unexpected | .badKey => some .expectedListEnd
  | .trailingComma => some .trailingComma

/-- The fault of the end of an object whose members are kept. -/
def Close.objectFault? : Close → Option Fault
  | .closed => none
  | .endOfText => some .endInObject
  | .endAfterComma => some .endInValue
  | .unexpected => some .expectedObjectEnd
  | .trailingComma => some .trailingComma
  | .badKey => some .keyNotString

/-- The fault of the end of an array that is passed over. -/
def Close.passedListFault? : Close → Option Fault
  | .trailingComma => some .expectedValue
  | close => close.listFault?

/-- The fault of the end of an object that is passed over. -/
def Close.passedObjectFault? : Close → Option Fault
  | .trailingComma => some .keyNotString
  | .endAfterComma => some .endInObject
  | close => close.objectFault?

/-- Success unless there is a fault. -/
def check : Option Fault → Except Fault Unit
  | none => .ok ()
  | some f => .error f

/-! ## Members -/

/-- The members with one more: a new name goes to the end, a known one keeps
    its place and takes the new value. -/
def insertMember (name : String) (v : Value) :
    List (String × Value) → List (String × Value)
  | [] => [(name, v)]
  | (k, w) :: rest =>
    if k = name then (k, v) :: rest else (k, w) :: insertMember name v rest

/-- The value of a member. -/
def lookupMember (name : String) : List (String × Value) → Option Value
  | [] => none
  | (k, v) :: rest => if k = name then some v else lookupMember name rest

/-! ## Keeping and passing over a value -/

mutual

/-- Reads a value that may nest to fewer than `depth` levels. -/
def Tree.read : Nat → Tree → Except Fault Value
  | _, .null => .ok .null
  | _, .bool b => .ok (.bool b)
  | _, .number n => return .number (← n.read)
  | _, .string s => return .string (← s.read)
  | depth, .array items close => do
    if depth ≤ 1 then throw .tooDeep
    let values ← readItems (depth - 1) items
    check close.listFault?
    return .array values
  | depth, .object members close => do
    if depth ≤ 1 then throw .tooDeep
    let values ← readMembers (depth - 1) [] members
    check close.objectFault?
    return .object values
  | _, .broken b => .error b.kept
  termination_by structural _ t => t

/-- Reads the elements of an array. -/
def readItems : Nat → List Tree → Except Fault (List Value)
  | _, [] => .ok []
  | depth, t :: rest => do
    let v ← t.read depth
    return v :: (← readItems depth rest)
  termination_by structural _ items => items

/-- Reads the members of an object on top of those already read. -/
def readMembers : Nat → List (String × Value) → List (StringLiteral × Tree) →
    Except Fault (List (String × Value))
  | _, done, [] => .ok done
  | depth, done, m :: rest => do
    let (name, v) ← readMember depth m
    readMembers depth (insertMember name v done) rest
  termination_by structural _ _ members => members

/-- Reads one member. -/
def readMember : Nat → StringLiteral × Tree → Except Fault (String × Value)
  | depth, (key, t) => do
    let name ← key.read
    let v ← t.read depth
    return (name, v)
  termination_by structural _ member => member

end

/-- Success if the literal has its closing quote. -/
def StringLiteral.pass (s : StringLiteral) : Except Fault Unit :=
  check s.ending.fault?

mutual

/-- Passes over a value. -/
def Tree.pass : Tree → Except Fault Unit
  | .null | .bool _ | .number _ => .ok ()
  | .string s => s.pass
  | .array items close => do
    passItems items
    check close.passedListFault?
  | .object members close => do
    passMembers members
    check close.passedObjectFault?
  | .broken b => .error b.passed
  termination_by structural t => t

/-- Passes over the elements of an array. -/
def passItems : List Tree → Except Fault Unit
  | [] => .ok ()
  | t :: rest => do
    t.pass
    passItems rest
  termination_by structural items => items

/-- Passes over the members of an object. -/
def passMembers : List (StringLiteral × Tree) → Except Fault Unit
  | [] => .ok ()
  | m :: rest => do
    passMember m
    passMembers rest
  termination_by structural members => members

/-- Passes over one member. -/
def passMember : StringLiteral × Tree → Except Fault Unit
  | (key, t) => do
    key.pass
    t.pass
  termination_by structural member => member

end

/-- The nesting from which on a value is refused. -/
def depthLimit : Nat := 128

/-- Reads the value of a whole text. -/
def Document.value (d : Document) : Except Fault Value := do
  let v ← d.root.read depthLimit
  if d.trailing then throw .trailingCharacters
  return v

/-! ## Kinds in words -/

/-- A number as an error message describes it. -/
def Number.described (n : Number) : String :=
  if n.isInteger then "integer `" ++ n.text ++ "`"
  else "floating point `" ++ n.text ++ "`"

/-- A value as an error message describes it. -/
def Value.described : Value → String
  | .null => "null"
  | .bool b => "boolean `" ++ (if b then "true" else "false") ++ "`"
  | .number n => n.described
  | .string s => "string " ++ Text.quoted s
  | .array _ => "sequence"
  | .object _ => "map"

/-! ## Equality -/

mutual

/-- Equal values, whatever the order of members. -/
def Value.same : Value → Value → Bool
  | .null, .null => true
  | .bool a, .bool b => a == b
  | .number a, .number b => a.same b
  | .string a, .string b => a == b
  | .array a, .array b => sameItems a b
  | .object a, .object b => a.length == b.length && sameMembers a b
  | _, _ => false
  termination_by structural v => v

/-- Equal elements in the same order. -/
def sameItems : List Value → List Value → Bool
  | [], [] => true
  | v :: vs, w :: ws => v.same w && sameItems vs ws
  | _, _ => false
  termination_by structural vs => vs

/-- Every member has an equal one of the same name on the other side. -/
def sameMembers : List (String × Value) → List (String × Value) → Bool
  | [], _ => true
  | m :: rest, others => sameMember m others && sameMembers rest others
  termination_by structural ms => ms

/-- The member has an equal one of the same name on the other side. -/
def sameMember : String × Value → List (String × Value) → Bool
  | (name, v), others =>
    match lookupMember name others with
    | some w => v.same w
    | none => false
  termination_by structural m => m

end

/-- Equal lists of members, whatever their order. -/
def sameEntries (a b : List (String × Value)) : Bool :=
  a.length == b.length && sameMembers a b

end RiskExchange.Json
