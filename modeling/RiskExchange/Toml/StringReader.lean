/-! # Strings — the four quoted forms

    Between double quotes a backslash begins an escape; between single quotes
    every character stands for itself. The forms with three quotes may hold
    line breaks and, at their end, up to two quotes more. -/

namespace RiskExchange.Toml

/-- A character that may stand in strings and comments as it is. -/
def isPlain (c : Char) : Bool :=
  c == '\t' || (0x20 ≤ c.toNat && c.toNat ≠ 0x7F)

/-- White space within a line. -/
def isSpace (c : Char) : Bool := c == ' ' || c == '\t'

/-- The value of a hexadecimal digit of either case. -/
def hexDigit? (c : Char) : Option Nat :=
  if '0' ≤ c ∧ c ≤ '9' then some (c.toNat - '0'.toNat)
  else if 'a' ≤ c ∧ c ≤ 'f' then some (c.toNat - 'a'.toNat + 10)
  else if 'A' ≤ c ∧ c ≤ 'F' then some (c.toNat - 'A'.toNat + 10)
  else none

/-- The character of a one-letter escape. -/
def escapeLetter? : Char → Option Char
  | 'b' => some '\x08'
  | 't' => some '\t'
  | 'n' => some '\n'
  | 'f' => some '\x0c'
  | 'r' => some '\r'
  | 'e' => some '\x1b'
  | '"' => some '"'
  | '\\' => some '\\'
  | _ => none

/-- How many hexadecimal digits follow the letter of an escape. -/
def codeLength? : Char → Option Nat
  | 'x' => some 2
  | 'u' => some 4
  | 'U' => some 8
  | _ => none

/-- The character with a code point; surrogates have none. -/
def charOf? (n : Nat) : Option Char :=
  if h : n.isValidChar then some (Char.ofNatAux n h) else none

/-- A place inside a string between double quotes. -/
inductive Mode where
  | plain
  /-- Behind a backslash. -/
  | escape
  /-- Before the given number of hexadecimal digits of a code. -/
  | code (left value : Nat)
  /-- Behind a backslash and blanks, before the line break. -/
  | fold
  /-- Behind that line break, before the next character that is not blank. -/
  | folded
  deriving DecidableEq, Repr

/-- The string with a character in front. -/
def prepend (c : Char) :
    Option (List Char × List Char) → Option (List Char × List Char)
  | some (s, rest) => some (c :: s, rest)
  | none => none

/-- Reads an escape: the mode behind a character, and the character that the
    escape stands for if it is complete. -/
def escapeStep? (c : Char) : Mode → Option (Mode × Option Char)
  | .escape =>
    match escapeLetter? c, codeLength? c with
    | some d, _ => some (.plain, some d)
    | none, some n => some (.code n 0, none)
    | none, none => none
  | .code left value => do
    let h ← hexDigit? c
    let value := value * 16 + h
    if left ≤ 1 then
      let d ← charOf? value
      return (.plain, some d)
    else return (.code (left - 1) value, none)
  | _ => none

/-- The string up to the closing double quote, and what follows it. -/
def readBasic : Mode → List Char → Option (List Char × List Char)
  | _, [] => none
  | .plain, c :: rest =>
    if c = '"' then some ([], rest)
    else if c = '\\' then readBasic .escape rest
    else if isPlain c then prepend c (readBasic .plain rest)
    else none
  | mode, c :: rest =>
    match escapeStep? c mode with
    | some (mode, some d) => prepend d (readBasic mode rest)
    | some (mode, none) => readBasic mode rest
    | none => none

/-- The string up to the closing single quote, and what follows it. -/
def readLiteral : List Char → Option (List Char × List Char)
  | [] => none
  | c :: rest =>
    if c = '\'' then some ([], rest)
    else if isPlain c then prepend c (readLiteral rest)
    else none

/-- The quotes before a closing delimiter, given what follows three quotes. -/
def closeMulti (quote : Char) : List Char → List Char × List Char
  | a :: b :: rest =>
    if a = quote ∧ b = quote then ([quote, quote], rest)
    else if a = quote then ([quote], b :: rest)
    else ([], a :: b :: rest)
  | [a] => if a = quote then ([quote], []) else ([], [a])
  | [] => ([], [])

/-- The character begins a line break or may stand as it is. -/
def isPlainOrBreak (c : Char) (rest : List Char) : Bool :=
  isPlain c || c == '\n' || (c == '\r' && rest.head? == some '\n')

/-- The string up to three closing double quotes, and what follows them. A
    backslash at the end of a line hides the line break and all blanks and line
    breaks behind it. -/
def readMultiBasic : Mode → List Char → Option (List Char × List Char)
  | _, [] => none
  | .escape, c :: rest =>
    if c = '\n' then readMultiBasic .folded rest
    else if isSpace c || (c == '\r' && rest.head? == some '\n') then
      readMultiBasic .fold rest
    else match escapeStep? c .escape with
      | some (mode, some d) => prepend d (readMultiBasic mode rest)
      | some (mode, none) => readMultiBasic mode rest
      | none => none
  | .code left value, c :: rest =>
    match escapeStep? c (.code left value) with
    | some (mode, some d) => prepend d (readMultiBasic mode rest)
    | some (mode, none) => readMultiBasic mode rest
    | none => none
  | .fold, c :: rest =>
    if c = '\n' then readMultiBasic .folded rest
    else if isSpace c || (c == '\r' && rest.head? == some '\n') then
      readMultiBasic .fold rest
    else none
  | _, '"' :: '"' :: '"' :: rest => some (closeMulti '"' rest)
  | mode, c :: rest =>
    if mode = .folded ∧
        (isSpace c ∨ c = '\n' ∨ (c = '\r' ∧ rest.head? = some '\n')) then
      readMultiBasic .folded rest
    else if c = '\\' then readMultiBasic .escape rest
    else if isPlainOrBreak c rest then prepend c (readMultiBasic .plain rest)
    else none

/-- The string up to three closing single quotes, and what follows them. -/
def readMultiLiteral : List Char → Option (List Char × List Char)
  | [] => none
  | '\'' :: '\'' :: '\'' :: rest => some (closeMulti '\'' rest)
  | c :: rest =>
    if isPlainOrBreak c rest then prepend c (readMultiLiteral rest) else none

/-- A line break right behind three opening quotes is not part of the string. -/
def dropFirstBreak : List Char → List Char
  | '\n' :: rest => rest
  | '\r' :: '\n' :: rest => rest
  | s => s

/-- A string on one line, if a quote stands in front. -/
def readLine? : List Char → Option (List Char × List Char)
  | '"' :: rest => readBasic .plain rest
  | '\'' :: rest => readLiteral rest
  | _ => none

/-- A string of any form, if a quote stands in front. -/
def readString? : List Char → Option (List Char × List Char)
  | '"' :: '"' :: '"' :: rest => readMultiBasic .plain (dropFirstBreak rest)
  | '\'' :: '\'' :: '\'' :: rest => readMultiLiteral (dropFirstBreak rest)
  | s => readLine? s

end RiskExchange.Toml
