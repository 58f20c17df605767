import RiskExchange.Disk.Operations
import RiskExchange.Journal.Noted

/-! # Sessions — computations that work on a disk

    A session changes a disk, reports notices and may fail; a failure keeps the
    changes and the notices up to it. -/

namespace RiskExchange.Disk

open RiskExchange.Journal (Noted Notice)

/-- A computation on a disk. -/
structure Session (ε α : Type) where
  run : Disk → Disk × Noted ε α

namespace Session

variable {ε δ α β : Type}

/-- Goes on after a success, on the disk as it is by then. -/
def bind (m : Session ε α) (f : α → Session ε β) : Session ε β where
  run d :=
    let (d, r) := m.run d
    match r.result with
    | .error e => (d, ⟨r.notices, .error e⟩)
    | .ok a =>
      let (d, s) := (f a).run d
      (d, ⟨r.notices ++ s.notices, s.result⟩)

instance : Monad (Session ε) where
  pure a := ⟨fun d => (d, pure a)⟩
  bind := Session.bind

/-- A computation that does not look at the disk. -/
def ofNoted (m : Noted ε α) : Session ε α := ⟨fun d => (d, m)⟩

/-- Reports one notice. -/
def note (n : Notice) : Session ε Unit := ofNoted (.note n)

/-- Fails. -/
def fail (e : ε) : Session ε α := ofNoted (.fail e)

/-- Looks something up on the disk. -/
def query (f : Disk → α) : Session ε α := ⟨fun d => (d, pure (f d))⟩

/-- Changes the disk, or fails and leaves it as it is. -/
def change (f : Disk → Except ε Disk) : Session ε Unit where
  run d := match f d with
    | .ok changed => (changed, pure ())
    | .error e => (d, .fail e)

/-- Changes the disk, also on failure. -/
def step (f : Disk → Disk × Except ε α) : Session ε α where
  run d := let (d, r) := f d; (d, .ofExcept r)

/-- Puts a failure into other words. -/
def mapError (f : ε → δ) (m : Session ε α) : Session δ α where
  run d := let (d, r) := m.run d; (d, r.mapError f)

/-- Runs a computation and changes the disk once more if it fails. -/
def onFailure (undo : Disk → Disk) (m : Session ε α) : Session ε α where
  run d :=
    let (d, r) := m.run d
    match r.result with
    | .ok _ => (d, r)
    | .error _ => (undo d, r)

/-- Runs a computation for its outcome; failing is an outcome too. -/
def attempt (m : Session ε α) : Session δ (Except ε α) where
  run d := let (d, r) := m.run d; (d, ⟨r.notices, .ok r.result⟩)

end Session
end RiskExchange.Disk
