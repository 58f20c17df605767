/-! # Writing strings — the plainest form that a text allows

    A text without anything special stands between double quotes. Otherwise a
    form is looked for in which it can stand as it is; only if there is none
    are characters escaped. -/

namespace RiskExchange.Toml

/-- The four forms of a string. -/
inductive Form where
  | basic
  | literal
  | multiBasic
  | multiLiteral
  deriving DecidableEq, Repr

/-- A control character that can stand in no form as it is. -/
def isControl (c : Char) : Bool :=
  (c.toNat < 0x20 && c ≠ '\t' && c ≠ '\n') || c.toNat == 0x7F

/-- The length of the longest run of a character in a text behind a run of the
    given length, if the longest before was `best`. -/
def longestRun (c : Char) (best current : Nat) : List Char → Nat
  | [] => max best current
  | d :: rest =>
    if d = c then longestRun c best (current + 1) rest
    else longestRun c (max best current) 0 rest

/-- The form in which a text is written. -/
def Form.of (s : List Char) : Form :=
  let control := s.any isControl
  let doubles := longestRun '"' 0 0 s
  let singles := longestRun '\'' 0 0 s
  let backslash := s.contains '\\'
  let newline := s.contains '\n'
  if !control && !backslash && doubles == 0 && !newline then .basic
  else if !control && singles == 0 && !newline then .literal
  else if !control && !backslash && doubles ≤ 2 then .multiBasic
  else if !control && singles ≤ 2 then .multiLiteral
  else if newline then .multiBasic
  else .basic

/-- A hexadecimal digit in upper case. -/
def upperHexDigit (n : Nat) : Char := (Nat.digitChar n).toUpper

/-- A character other than a quote between double quotes. A line break stands
    as it is where there are three of them. -/
def escapedChar (multi : Bool) (c : Char) : List Char :=
  if c = '\x08' then ['\\', 'b']
  else if c = '\t' then ['\\', 't']
  else if c = '\n' then if multi then [c] else ['\\', 'n']
  else if c = '\x0c' then ['\\', 'f']
  else if c = '\r' then ['\\', 'r']
  else if c = '\\' then ['\\', '\\']
  else if isControl c then
    ['\\', 'u', '0', '0', upperHexDigit (c.toNat / 16),
      upperHexDigit (c.toNat % 16)]
  else [c]

/-- A text between double quotes. Up to `allowed` quotes in a row stand as they
    are, and the next one is escaped; `run` of them stand in front. -/
def escaped (multi : Bool) (allowed run : Nat) : List Char → List Char
  | [] => []
  | c :: rest =>
    if c = '"' then
      if run < allowed then c :: escaped multi allowed (run + 1) rest
      else '\\' :: c :: escaped multi allowed 0 rest
    else escapedChar multi c ++ escaped multi allowed 0 rest

/-- Three quotes, and a line break that is not part of the string if the string
    has one of its own. -/
def openMulti (quote : Char) (s : List Char) : List Char :=
  [quote, quote, quote] ++ (if s.contains '\n' then ['\n'] else [])

/-- A text as a TOML string. -/
def printString (s : List Char) : List Char :=
  match Form.of s with
  | .basic => '"' :: escaped false 0 0 s ++ ['"']
  | .literal => '\'' :: s ++ ['\'']
  | .multiBasic => openMulti '"' s ++ escaped true 2 0 s ++ ['"', '"', '"']
  | .multiLiteral => openMulti '\'' s ++ s ++ ['\'', '\'', '\'']

end RiskExchange.Toml
