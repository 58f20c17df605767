import RiskExchange.Markup.Layout

/-! # Sinks — writing where there may not be room

    A sink takes bytes while it has room. A chunk that does not fit is taken as
    far as it does, and nothing is written after it. -/

namespace RiskExchange.Markup

/-- The bytes of a text. -/
def octets (s : List Char) : List UInt8 := s.flatMap String.utf8EncodeChar

/-- A place to write to, with room for a number of bytes more. -/
structure Sink where
  room : Nat
  taken : List UInt8
  deriving DecidableEq, Repr

namespace Sink

/-- An empty sink. -/
def ofRoom (room : Nat) : Sink := ⟨room, []⟩

/-- Takes what fits of a chunk. -/
def take (s : Sink) (chunk : List UInt8) : Sink where
  room := s.room - chunk.length
  taken := s.taken ++ chunk.take s.room

/-- Writes chunks until one does not fit; `false` if that happens. -/
def writeAll (s : Sink) : List (List UInt8) → Sink × Bool
  | [] => (s, true)
  | chunk :: rest =>
    if chunk.length ≤ s.room then (s.take chunk).writeAll rest
    else (s.take chunk, false)

/-- Writes pieces with an indent. -/
def write (s : Sink) (indent : Nat) (pieces : List Piece) : Sink × Bool :=
  s.writeAll ((chunks indent .start pieces).map octets)

/-- The wording of the failure to write on. -/
def fullMessage : String := "sink is full"

end Sink
end RiskExchange.Markup
