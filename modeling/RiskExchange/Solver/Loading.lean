import RiskExchange.Disk.Session
import RiskExchange.Solver.Decoding
import RiskExchange.Solver.LoadError

/-! # Loading — the solution in a file -/

namespace RiskExchange.Solver

open RiskExchange.Disk (Failure Session)

/-- The solution that a file's bytes hold. -/
def Solution.ofBytes (content : ByteArray) : Except LoadError Solution :=
  (Solution.ofText (Text.glyphs content)).mapError .undecodable

/-- Loads the solution in a file. -/
def Solution.load (path : String) : Session LoadError Solution := do
  match ← Session.query (·.entryAt path) with
  | .ok (.file content) => Session.ofNoted (.ofExcept (ofBytes content))
  | .ok .directory =>
    Session.fail (.undecodable (.unreadable Failure.isDirectory.message))
  | .error .notFound => Session.fail (.notFound path)
  | .error e => Session.fail (.unreadable e.message)

end RiskExchange.Solver
