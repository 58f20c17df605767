import RiskExchange.Journal.Notice
import RiskExchange.Text.Quoted

/-! # Log — the notices that a run shows, as a terminal may show them

    From a level on that the verbosity sets, notices are shown. A log is read
    in a terminal, so a character that a terminal may take for a command is
    shown by its code point. -/

namespace RiskExchange.CommandLine

open RiskExchange.Journal (Level Notice)

/-! ## Characters -/

/-- The ASCII characters that a terminal takes for commands: bell, backspace,
    form feed, escape and delete. -/
def terminalChars : List Char := ['\x07', '\x08', '\x0c', '\x1b', '\x7f']

/-- A character as the log shows it. -/
def shownChar (c : Char) : List Char :=
  if terminalChars.contains c then
    ['\\', 'x', Nat.digitChar (c.toNat / 16), Nat.digitChar (c.toNat % 16)]
  else if 0x80 ≤ c.toNat ∧ c.toNat ≤ 0x9F then
    ['\\', 'u', '\x7b'] ++ Text.hexNumeral c.toNat ++ ['\x7d']
  else [c]

/-- A text as the log shows it. -/
def shown (s : String) : String := String.ofList (s.toList.flatMap shownChar)

/-! ## Entries -/

/-- An entry of the log. -/
structure LogEntry where
  level : Level
  text : String
  deriving DecidableEq, Repr

/-- The level from which on notices are logged. -/
def logLevel (verbosity : Nat) : Level :=
  match verbosity with
  | 0 => .warn
  | 1 => .info
  | _ => .debug

/-- The entry of a notice. -/
def LogEntry.ofNotice (n : Notice) : LogEntry := ⟨n.level, shown n.message⟩

/-- The log of a run. -/
def logged (verbosity : Nat) (notices : List Notice) : List LogEntry :=
  (notices.filter fun n => (logLevel verbosity).rank ≤ n.level.rank).map
    .ofNotice

end RiskExchange.CommandLine
