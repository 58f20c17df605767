import RiskExchange.Json.Decoder
import RiskExchange.Text.Blank

/-! # Raw ids — ids, gate inputs and terms as a solver writes them

    A solver writes an id as a number or as a string, and either is kept as it
    is written. The inputs of a gate are a list, a single id, or an integer in
    place of an empty list. A cut-set term is a number that may be quoted. -/

namespace RiskExchange.Solver

open RiskExchange.Json (Decoder Mismatch Value)

/-- An id, or any other scalar that a solver writes in two ways. -/
inductive RawId where
  | number (n : Json.Number)
  | text (s : String)
  deriving DecidableEq, Repr

namespace RawId

/-- The id is an integer, neither quoted nor with a fraction or exponent. -/
def isInteger : RawId → Bool
  | .number n => n.isInteger
  | .text _ => false

/-- The id as it is written. -/
def written : RawId → String
  | .number n => n.text
  | .text s => s

/-- The scalar as an id. -/
def ofJson? : Value → Option RawId
  | .number n => some (.number n)
  | .string s => some (.text s)
  | _ => none

/-- Reads an id. -/
def decoder : Decoder RawId :=
  .judged fun v => match ofJson? v with
    | some id => .ok id
    | none => .error (.noAlternative "RawId")

end RawId

/-! ## Gate inputs -/

/-- The ids of a list in which `null` may stand; `none` if anything else does. -/
def listedIds? : List Value → Option (List RawId)
  | [] => some []
  | .null :: rest => listedIds? rest
  | v :: rest => do
    let id ← RawId.ofJson? v
    let ids ← listedIds? rest
    return id :: ids

/-- The inputs that a value lists. A bare integer stands for none, any other
    scalar for one. -/
def inputsOfJson? : Value → Option (List RawId)
  | .null => some []
  | .array items => listedIds? items
  | v => do
    let id ← RawId.ofJson? v
    return if id.isInteger then [] else [id]

/-- Reads the inputs of a gate. -/
def inputs : Decoder (List RawId) :=
  .judged fun v => match inputsOfJson? v with
    | some ids => .ok ids
    | none => .error (.noAlternative "InputsRepr")

/-! ## Terms -/

/-- The term that a value denotes: an unsigned integer, or a string with one
    between blanks. -/
def termOfJson : Value → Except Mismatch Nat
  | .number (.natural n) => .ok n
  | .string s =>
    match Text.readUnsigned Text.maxWord64 (Text.trim s.toList) with
    | .ok n => .ok n
    | .error e => .error (.badUnsigned e)
  | _ => .error (.noAlternative "TermRepr")

/-- Reads a term. -/
def term : Decoder Nat := .judged termOfJson

end RiskExchange.Solver
