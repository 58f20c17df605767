/-! # Faults — why a text is not JSON

    A reader reports the first fault it meets from left to right. A value that
    is kept and a value that is passed over are held to slightly different
    rules, so some places are described by two faults (`Break`). -/

namespace RiskExchange.Json

/-- A place where a text stops being JSON. -/
inductive Fault where
  | endInList
  | endInObject
  | endInString
  | endInValue
  | expectedColon
  | expectedListEnd
  | expectedObjectEnd
  | expectedName
  | expectedValue
  | invalidEscape
  | invalidNumber
  | numberOutOfRange
  | invalidCodePoint
  | controlCharacter
  | keyNotString
  | loneSurrogate
  | trailingComma
  | trailingCharacters
  | surrogateCutShort
  | tooDeep
  deriving DecidableEq, Repr

/-- The wording of a fault. -/
def Fault.message : Fault → String
  | .endInList => "EOF while parsing a list"
  | .endInObject => "EOF while parsing an object"
  | .endInString => "EOF while parsing a string"
  | .endInValue => "EOF while parsing a value"
  | .expectedColon => "expected `:`"
  | .expectedListEnd => "expected `,` or `]`"
  | .expectedObjectEnd => "expected `,` or `\x7d`"
  | .expectedName => "expected ident"
  | .expectedValue => "expected value"
  | .invalidEscape => "invalid escape"
  | .invalidNumber => "invalid number"
  | .numberOutOfRange => "number out of range"
  | .invalidCodePoint => "invalid unicode code point"
  | .controlCharacter =>
    "control character (\\u0000-\\u001F) found while parsing a string"
  | .keyNotString => "key must be a string"
  | .loneSurrogate => "lone leading surrogate in hex escape"
  | .trailingComma => "trailing comma"
  | .trailingCharacters => "trailing characters"
  | .surrogateCutShort => "unexpected end of hex escape"
  | .tooDeep => "recursion limit exceeded"

/-- The text ended too early, as opposed to holding something wrong. -/
def Fault.isEnd : Fault → Bool
  | .endInList | .endInObject | .endInString | .endInValue => true
  | _ => false

/-- A broken value: the fault if it is kept, and the fault if it is passed
    over. -/
structure Break where
  kept : Fault
  passed : Fault
  deriving DecidableEq, Repr

/-- A break that is the same fault either way. -/
def Break.always (f : Fault) : Break := ⟨f, f⟩

end RiskExchange.Json
