import RiskExchange.Markup.Sink

/-! # Writers — pieces on a device that may take a part of them, or fail

    A device takes bytes from the front of what it is offered and says how many
    it has taken, and the rest is offered again. A piece is written in a few
    buffers, one after the other. The first failure ends the writing and is
    passed on as it is. -/

namespace RiskExchange.Markup

/-! ## Computations that may fail -/

/-- A computation that works on a state and may fail; a failure keeps what has
    become of the state. -/
structure Writing (σ α : Type) where
  run : σ → σ × Except String α

namespace Writing

variable {σ α β : Type}

/-- Goes on after a success. -/
def bind (m : Writing σ α) (f : α → Writing σ β) : Writing σ β where
  run s :=
    let (s, r) := m.run s
    match r with
    | .error e => (s, .error e)
    | .ok a => (f a).run s

instance : Monad (Writing σ) where
  pure a := ⟨fun s => (s, .ok a)⟩
  bind := Writing.bind

/-- Fails. -/
def fail (e : String) : Writing σ α := ⟨fun s => (s, .error e)⟩

end Writing

/-! ## Devices -/

/-- A place to write to. An offer that is interrupted is made again, so it is
    one offer here. -/
structure Device (σ : Type) where
  /-- Offers bytes; how many of them are taken. -/
  offer : List UInt8 → Writing σ Nat
  /-- Passes on what has been taken. -/
  flush : Writing σ Unit

/-- The wording of the failure of a device that takes nothing. -/
def wroteNothing : String := "failed to write whole buffer"

namespace Device

variable {σ : Type} (dev : Device σ)

/-- Offers bytes until all are taken, some of them, in front, being taken
    already. -/
def putAll : Nat → List UInt8 → Writing σ Unit
  | _, [] => return ()
  | taken + 1, _ :: rest => putAll taken rest
  | 0, byte :: rest => do
    match ← dev.offer (byte :: rest) with
    | 0 => Writing.fail wroteNothing
    | taken + 1 => putAll taken rest

/-- Writes buffers one after the other. -/
def putEach (buffers : List (List UInt8)) : Writing σ Unit :=
  buffers.forM (dev.putAll 0)

end Device

/-- A sink takes what there is room for, and fails when there is none left. -/
def Sink.device : Device Sink where
  offer bytes := ⟨fun s =>
    if s.room = 0 then (s, .error fullMessage)
    else (s.take bytes, .ok (min bytes.length s.room))⟩
  flush := return ()

/-! ## Pieces -/

/-- The buffers that a piece is written in. -/
def Piece.parts : Piece → List (List Char)
  | .declaration =>
    ["<?".toList, "xml version=\"1.0\" encoding=\"UTF-8\"".toList, "?>".toList]
  | .opening name attributes =>
    [['<'], name.toList ++ attributesText attributes, ['>']]
  | .closing name => [['<', '/'], name.toList, ['>']]
  | .single name attributes =>
    [['<'], name.toList ++ attributesText attributes, ['/', '>']]
  | .text content => [escape content]

/-- The buffers of the line break in front of a piece. -/
def breakParts (indent : Nat) (p : Cursor) (piece : Piece) :
    List (List Char) :=
  match breakBefore indent p piece with
  | [] => []
  | lineBreak :: spaces => [[lineBreak], spaces]

/-- All buffers of a piece at a position. -/
def Piece.buffers (indent : Nat) (p : Cursor) (piece : Piece) :
    List (List UInt8) :=
  (breakParts indent p piece ++ piece.parts).map octets

/-- Keeps the position to the computation, which begins at the first. -/
def Writing.fromStart {σ α : Type} (m : Writing (σ × Cursor) α) :
    Writing σ α where
  run s := let ((s, _), r) := m.run (s, .start); (s, r)

namespace Device

variable {σ : Type} (dev : Device σ)

/-- Writes a piece at the position that has been reached. -/
def event (indent : Nat) (piece : Piece) : Writing (σ × Cursor) Unit where
  run := fun (s, p) =>
    let (s, r) := (dev.putEach (piece.buffers indent p)).run s
    ((s, p.after piece), r)

/-- Writes from the first position on, and passes on what has been taken. -/
def document (write : Writing (σ × Cursor) Unit) : Writing σ Unit := do
  write.fromStart
  dev.flush

end Device
end RiskExchange.Markup
