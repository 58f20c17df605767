import RiskExchange.Model.BuildError
import RiskExchange.Text.Blank
import RiskExchange.Text.Unsigned

/-! # Gate kinds — disjunction, conjunction and threshold

    A threshold is written `k/n`. Only `k` makes the gate; `n` repeats the
    number of its inputs and is compared with it for a warning at most. -/

namespace RiskExchange.Model

/-- When a gate is true. -/
inductive GateKind where
  | or
  | and
  /-- At least `k` inputs are true. -/
  | atLeast (k : Nat)
  deriving DecidableEq, Repr

/-- The parts of a text before and after its first slash. -/
def splitSlash? : List Char → Option (List Char × List Char)
  | [] => none
  | c :: rest =>
    if c = '/' then some ([], rest)
    else (splitSlash? rest).map fun (before, after) => (c :: before, after)

/-- The unsigned number that a text holds between blanks. -/
def paddedNumber? (bound : Nat) (s : List Char) : Option Nat :=
  (Text.readUnsigned bound (Text.trim s)).toOption

namespace GateKind

/-- The threshold `k` of a text `k/n`, a positive 32-bit number. -/
def threshold? (s : String) : Option Nat := do
  let (before, _) ← splitSlash? s.toList
  let k ← paddedNumber? Text.maxWord32 before
  if 0 < k then some k else none

/-- Reads a gate kind. -/
def parse (s : String) : Except BuildError GateKind :=
  if s = "or" then .ok .or
  else if s = "and" then .ok .and
  else match threshold? s with
    | some k => .ok (.atLeast k)
    | none => .error (.malformedGateKind s)

/-- The number of inputs that a threshold declares, where what follows the
    slash is a number. -/
def declaredInputs? (s : String) : Option Nat := do
  let (_, after) ← splitSlash? s.toList
  paddedNumber? Text.maxWord64 after

/-- A gate kind as it is written; a threshold as its number. -/
def text : GateKind → String
  | .or => "or"
  | .and => "and"
  | .atLeast k => toString k

/-- The number of a threshold. -/
def threshold : GateKind → Option Nat
  | .atLeast k => some k
  | _ => none

end GateKind
end RiskExchange.Model
