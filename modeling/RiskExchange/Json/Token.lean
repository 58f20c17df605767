import RiskExchange.Json.Fault
import RiskExchange.Text.Glyph

/-! # Tokens — brackets, marks, names, numerals and string literals

    Literals are kept as they are spelled: whether a numeral is in range, and
    whether a string's escapes form characters, matters only to a reader that
    keeps the value. A text is lexed in one pass by a machine with one `Mode`
    per place inside a token; it stops at the first glyph that can neither
    begin nor continue one. -/

namespace RiskExchange.Json

open RiskExchange.Text (Glyph)

/-- A numeral as spelled: digits before the point, after it, and the sign and
    digits of an exponent. -/
structure NumberLiteral where
  negative : Bool
  whole : List Nat
  fraction : Option (List Nat)
  exponent : Option (Bool × List Nat)
  deriving DecidableEq, Repr

/-- One step of a string literal between its quotes. -/
inductive Piece where
  /-- A character that stands for itself. -/
  | plain (c : Char)
  /-- A backslash and a letter, standing for a character. -/
  | short (c : Char)
  /-- A backslash, the letter `u` and four hexadecimal digits. -/
  | unit (n : Nat)
  /-- A byte outside UTF-8. -/
  | stray (byte : UInt8)
  deriving DecidableEq, Repr

/-- How a string literal ends: with its closing quote, or for want of one. -/
inductive StringEnd where
  | closed
  | endOfText
  | control
  | badEscape
  | badHexDigits
  deriving DecidableEq, Repr

/-- A string literal as spelled, and how it ends. -/
structure StringLiteral where
  pieces : List Piece
  ending : StringEnd
  deriving DecidableEq, Repr

/-- A token. `broken` is a name or numeral that goes wrong half-way; `other` is
    a glyph that begins no token. Nothing is read after either. -/
inductive Token where
  | openArray
  | closeArray
  | openObject
  | closeObject
  | colon
  | comma
  | null
  | bool (b : Bool)
  | number (n : NumberLiteral)
  | string (s : StringLiteral)
  | broken (b : Break)
  | other
  deriving DecidableEq, Repr

/-- The white space of JSON. -/
def isSpace (c : Char) : Bool := c == ' ' || c == '\n' || c == '\t' || c == '\r'

/-- The value of a decimal digit. -/
def digit? : Glyph → Option Nat
  | .char c => if '0' ≤ c ∧ c ≤ '9' then some (c.toNat - '0'.toNat) else none
  | .stray _ => none

/-- The value of a hexadecimal digit of either case. -/
def hexDigit? : Glyph → Option Nat
  | .char c =>
    if '0' ≤ c ∧ c ≤ '9' then some (c.toNat - '0'.toNat)
    else if 'a' ≤ c ∧ c ≤ 'f' then some (c.toNat - 'a'.toNat + 10)
    else if 'A' ≤ c ∧ c ≤ 'F' then some (c.toNat - 'A'.toNat + 10)
    else none
  | .stray _ => none

/-- The character that a backslash and a letter stand for. -/
def shortEscape? : Char → Option Char
  | '"' => some '"'
  | '\\' => some '\\'
  | '/' => some '/'
  | 'b' => some '\x08'
  | 'f' => some '\x0c'
  | 'n' => some '\n'
  | 'r' => some '\r'
  | 't' => some '\t'
  | _ => none

/-- The glyph marks an exponent. -/
def isExponentMark : Glyph → Bool
  | .char c => c == 'e' || c == 'E'
  | .stray _ => false

/-- How far into a numeral the machine is. -/
inductive Stage where
  | sign
  | zero
  | whole
  | point
  | fraction
  | mark
  | exponentSign
  | exponent
  deriving DecidableEq, Repr

/-- The numeral may end here. -/
def Stage.complete : Stage → Bool
  | .zero | .whole | .fraction | .exponent => true
  | .sign | .point | .mark | .exponentSign => false

/-- Where in a text the machine is: between tokens, inside a name with some
    characters due, inside a string literal with the pieces read so far (last
    first), or inside a numeral. -/
inductive Mode where
  | between
  | name (token : Token) (due : List Char)
  | string (pieces : List Piece)
  | escape (pieces : List Piece)
  /-- Inside a `\u` escape, which is four bytes long whatever they are; the
      value is lost once one of them is no digit. -/
  | unit (pieces : List Piece) (octets : Nat) (value : Option Nat)
  | number (stage : Stage) (n : NumberLiteral)

namespace Mode

/-- The tokens that a glyph completes, and the mode after it; no mode where the
    machine stops. -/
abbrev Step := List Token × Option Mode

/-- A glyph between tokens. -/
def start : Glyph → Step
  | .stray _ => ([.other], none)
  | .char c =>
    if isSpace c then ([], some .between)
    else match c with
      | '[' => ([.openArray], some .between)
      | ']' => ([.closeArray], some .between)
      | '{' => ([.openObject], some .between)
      | '}' => ([.closeObject], some .between)
      | ':' => ([.colon], some .between)
      | ',' => ([.comma], some .between)
      | '"' => ([], some (.string []))
      | 'n' => ([], some (.name .null ['u', 'l', 'l']))
      | 't' => ([], some (.name (.bool true) ['r', 'u', 'e']))
      | 'f' => ([], some (.name (.bool false) ['a', 'l', 's', 'e']))
      | '-' => ([], some (.number .sign ⟨true, [], none, none⟩))
      | _ =>
        match digit? (.char c) with
        | some 0 => ([], some (.number .zero ⟨false, [0], none, none⟩))
        | some d => ([], some (.number .whole ⟨false, [d], none, none⟩))
        | none => ([.other], none)

/-- The literal as read so far ends here, and so does the text for the
    machine. -/
def cut (pieces : List Piece) (ending : StringEnd) : Step :=
  ([.string ⟨pieces.reverse, ending⟩], none)

/-- A glyph between the quotes of a string literal. -/
def stepString (pieces : List Piece) : Glyph → Step
  | .stray b => ([], some (.string (.stray b :: pieces)))
  | .char c =>
    if c = '"' then ([.string ⟨pieces.reverse, .closed⟩], some .between)
    else if c = '\\' then ([], some (.escape pieces))
    else if c.toNat < 0x20 then cut pieces .control
    else ([], some (.string (.plain c :: pieces)))

/-- A glyph after a backslash. -/
def stepEscape (pieces : List Piece) : Glyph → Step
  | .stray _ => cut pieces .badEscape
  | .char c =>
    if c = 'u' then ([], some (.unit pieces 0 (some 0)))
    else match shortEscape? c with
      | some e => ([], some (.string (.short e :: pieces)))
      | none => cut pieces .badEscape

/-- A glyph inside a `\u` escape. -/
def stepUnit (pieces : List Piece) (octets : Nat) (value : Option Nat)
    (g : Glyph) : Step :=
  let octets := octets + g.octets
  let value := do return (← value) * 16 + (← hexDigit? g)
  if octets < 4 then ([], some (.unit pieces octets value))
  else match value with
    | some n => ([], some (.string (.unit n :: pieces)))
    | none => cut pieces .badHexDigits

/-- The numeral goes wrong at a glyph. -/
def spoiled : Step := ([.broken (.always .invalidNumber)], none)

/-- The numeral ends before a glyph, which begins something else. -/
def ended (n : NumberLiteral) (g : Glyph) : Step :=
  let (tokens, mode) := start g
  (.number n :: tokens, mode)

/-- A glyph inside a numeral. -/
def stepNumber (stage : Stage) (n : NumberLiteral) (g : Glyph) : Step :=
  match stage, digit? g with
  | .sign, some 0 => ([], some (.number .zero { n with whole := [0] }))
  | .sign, some d | .whole, some d =>
    ([], some (.number .whole { n with whole := n.whole ++ [d] }))
  | .zero, some _ => spoiled
  | .point, some d | .fraction, some d =>
    let digits := n.fraction.getD [] ++ [d]
    ([], some (.number .fraction { n with fraction := some digits }))
  | .mark, some d =>
    ([], some (.number .exponent { n with exponent := some (false, [d]) }))
  | .exponentSign, some d | .exponent, some d =>
    let (down, digits) := n.exponent.getD (false, [])
    ([], some (.number .exponent
      { n with exponent := some (down, digits ++ [d]) }))
  | .zero, none | .whole, none =>
    if g = .char '.' then ([], some (.number .point n))
    else if isExponentMark g then ([], some (.number .mark n))
    else ended n g
  | .fraction, none =>
    if isExponentMark g then ([], some (.number .mark n)) else ended n g
  | .mark, none =>
    if g = .char '+' then
      ([], some (.number .exponentSign { n with exponent := some (false, []) }))
    else if g = .char '-' then
      ([], some (.number .exponentSign { n with exponent := some (true, []) }))
    else spoiled
  | .exponent, none => ended n g
  | .sign, none | .point, none | .exponentSign, none => spoiled

/-- A glyph inside a name. -/
def stepName (token : Token) (due : List Char) (g : Glyph) : Step :=
  match due with
  | [] => ([], some .between)
  | [c] =>
    if g = .char c then ([token], some .between)
    else ([.broken (.always .expectedName)], none)
  | c :: more =>
    if g = .char c then ([], some (.name token more))
    else ([.broken (.always .expectedName)], none)

/-- The machine's next step. -/
def step : Mode → Glyph → Step
  | .between, g => start g
  | .name token due, g => stepName token due g
  | .string pieces, g => stepString pieces g
  | .escape pieces, g => stepEscape pieces g
  | .unit pieces octets value, g => stepUnit pieces octets value g
  | .number stage n, g => stepNumber stage n g

/-- The tokens that the end of the text completes. -/
def finish : Mode → List Token
  | .between => []
  | .name _ _ => [.broken (.always .endInValue)]
  | .string pieces | .escape pieces | .unit pieces _ _ =>
    [.string ⟨pieces.reverse, .endOfText⟩]
  | .number stage n =>
    if stage.complete then [.number n]
    else [.broken ⟨.endInValue, .invalidNumber⟩]

end Mode

/-- The tokens of a text, from a mode on. -/
def lexFrom : Mode → List Glyph → List Token
  | mode, [] => mode.finish
  | mode, g :: rest =>
    match mode.step g with
    | (tokens, none) => tokens
    | (tokens, some next) => tokens ++ lexFrom next rest

/-- The tokens of a text. -/
def lex (text : List Glyph) : List Token := lexFrom .between text

end RiskExchange.Json
