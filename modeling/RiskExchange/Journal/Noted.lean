import RiskExchange.Journal.Notice

/-! # Noted computations — a result and the notices that led to it

    A computation may fail, and its notices up to the failure are kept. -/

namespace RiskExchange.Journal

/-- What a computation reports and how it ends. -/
structure Noted (ε α : Type) where
  notices : List Notice
  result : Except ε α

namespace Noted

variable {ε δ α β : Type}

/-- Ends without reporting anything. -/
def ofExcept (result : Except ε α) : Noted ε α := ⟨[], result⟩

/-- Reports one notice. -/
def note (n : Notice) : Noted ε Unit := ⟨[n], .ok ()⟩

/-- Fails. -/
def fail (e : ε) : Noted ε α := ⟨[], .error e⟩

/-- Goes on after a success; the notices of both parts are kept in order. -/
def bind (m : Noted ε α) (f : α → Noted ε β) : Noted ε β :=
  match m.result with
  | .error e => ⟨m.notices, .error e⟩
  | .ok a => ⟨m.notices ++ (f a).notices, (f a).result⟩

instance : Monad (Noted ε) where
  pure a := ⟨[], .ok a⟩
  bind := Noted.bind

/-- Puts a failure into other words. -/
def mapError (f : ε → δ) (m : Noted ε α) : Noted δ α :=
  ⟨m.notices, m.result.mapError f⟩

end Noted
end RiskExchange.Journal
