import RiskExchange.Text.Unsigned
import RiskExchange.Json.Decoder

/-! # Term codes — cut-set terms folded onto 17 bits

    A cut-set term is a number. Its code keeps the low 17 bits and one letter
    for the class of the term: six-digit numbers are taken for basic events.
    Codes are one-to-one below `2 ^ 17` and lossy above. -/

namespace RiskExchange.CutSet

/-- What a term is taken for. -/
inductive TermClass where
  | basicEvent
  | structural
  deriving DecidableEq, Repr

/-- A term of exactly six decimal digits is taken for a basic event. -/
def TermClass.of (term : Nat) : TermClass :=
  if 100000 ≤ term ∧ term ≤ 999999 then .basicEvent else .structural

/-- The letter of a class. -/
def TermClass.letter : TermClass → Char
  | .basicEvent => 'f'
  | .structural => 's'

/-- The class of a letter. -/
def TermClass.ofLetter? (c : Char) : Option TermClass :=
  if c = 'f' then some .basicEvent
  else if c = 's' then some .structural
  else none

/-- The number of payloads: 17 bits are kept. -/
abbrev payloadCount : Nat := Nat.pow 2 17

/-- The bits that are kept. -/
def payloadMask : Nat := (1 <<< 17) - 1

/-- The code of a term. -/
structure TermCode where
  kind : TermClass
  payload : Fin payloadCount
  deriving DecidableEq, Repr

namespace TermCode

/-- The code of a term: its class and its low 17 bits. -/
def ofTerm (term : Nat) : TermCode where
  kind := .of term
  payload := ⟨term &&& payloadMask,
    Nat.lt_of_le_of_lt Nat.and_le_right (by decide)⟩

/-- The code as it is written. -/
def text (c : TermCode) : String :=
  String.ofList (c.kind.letter :: Nat.toDigits 10 c.payload)

/-- Why a text is not a term code. -/
inductive ParseError where
  | letter (text : String)
  | payload (text : String)
  deriving DecidableEq, Repr

/-- The wording of a `ParseError`. -/
def ParseError.message : ParseError → String
  | .letter s => "Invalid term tag in '" ++ s ++ "': expected 'f' or 's'"
  | .payload s =>
    "Invalid term payload in '" ++ s ++ "': expected an integer below 131072"

/-- Reads a payload: a word of 32 bits of which only those that are kept may be
    set. -/
def readPayload? (s : List Char) : Option (Fin payloadCount) :=
  match Text.readUnsigned Text.maxWord32 s with
  | .ok n => if h : n < payloadCount then some ⟨n, h⟩ else none
  | .error _ => none

/-- Reads a term code. -/
def parse (s : String) : Except ParseError TermCode :=
  match s.toList with
  | [] => .error (.letter s)
  | c :: rest =>
    match TermClass.ofLetter? c with
    | none => .error (.letter s)
    | some k =>
      match readPayload? rest with
      | none => .error (.payload s)
      | some p => .ok ⟨k, p⟩

/-- Term codes are strings in JSON. -/
def decoder : Json.Decoder TermCode :=
  .text fun s =>
    match parse s with
    | .ok c => .ok c
    | .error e => .error (.badText e.message)

/-- The JSON string of a term code. -/
def toJson (c : TermCode) : Json.Value := .string c.text

end TermCode
end RiskExchange.CutSet
