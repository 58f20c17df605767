import RiskExchange.Journal.Noted
import RiskExchange.Model.GateKind
import RiskExchange.Solver.Records

/-! # Fault trees — gates under one top gate

    The first gate of a record is the top gate and has no id of its own; the
    others are named by their ids. Within a tree no two gates share a name. -/

namespace RiskExchange.Model

open RiskExchange.Journal (Noted Notice)
open RiskExchange.Solver (RawId GateRecord FaultTreeRecord)

/-- A gate and the names of its inputs. -/
structure Gate where
  name : Identifier
  kind : GateKind
  gates : List Identifier
  events : List Identifier
  complements : List Identifier
  deriving DecidableEq, Repr

/-- The names of raw ids as entities of one kind. -/
def nameAll (tag : Tag) (ids : List RawId) : List Identifier :=
  ids.map fun id => .tagged tag id.written

namespace Gate

/-- The number of inputs of all three kinds. -/
def inputCount (g : Gate) : Nat :=
  g.gates.length + g.events.length + g.complements.length

/-- The gate that a record describes, of a kind already read. -/
def ofRecord (name : Identifier) (kind : GateKind) (r : GateRecord) : Gate where
  name := name
  kind := kind
  gates := nameAll .gate r.gates
  events := nameAll .basicEvent r.events
  complements := nameAll .basicEvent r.complements

/-- The warning about a gate whose record declares another number of inputs. -/
def arityNotice? (g : Gate) (declared : String) : Option Notice :=
  match GateKind.declaredInputs? declared with
  | some n =>
    if n = g.inputCount then none
    else some (.arityMismatch g.name declared g.inputCount)
  | none => none

/-- Builds a gate of a given name. -/
def build (name : Identifier) (r : GateRecord) : Noted BuildError Gate := do
  let kind ← Noted.ofExcept (GateKind.parse r.kind)
  let gate := ofRecord name kind r
  match gate.arityNotice? r.kind with
  | some n => Noted.note n
  | none => pure ()
  return gate

end Gate

/-- A fault tree: its gates, the top gate first. -/
structure FaultTree where
  name : Identifier
  gates : List Gate
  deriving DecidableEq, Repr

namespace FaultTree

/-- The top gate, if there are gates. -/
def top? (t : FaultTree) : Option Gate := t.gates.head?

/-- The tree has no gates. -/
def isEmpty (t : FaultTree) : Bool := t.gates.isEmpty

/-- The names of the gates of a record: the first is the top gate. -/
def gateNames : List GateRecord → List Identifier
  | [] => []
  | _ :: rest => .top :: nameAll .gate (rest.map (·.id))

/-- Builds gates one after the other. A name that is taken is reported before
    the gate's kind is looked at. -/
def buildGates (tree : Identifier) :
    List Identifier → List (Identifier × GateRecord) → Noted BuildError (List Gate)
  | _, [] => return []
  | taken, (name, record) :: rest => do
    if taken.contains name then Noted.fail (.duplicateGate tree name)
    let gate ← Gate.build name record
    let gates ← buildGates tree (name :: taken) rest
    return gate :: gates

/-- Builds the fault tree of a record. -/
def build (r : FaultTreeRecord) : Noted BuildError FaultTree := do
  let name := Identifier.tagged .faultTree r.id.written
  let gates ← buildGates name [] ((gateNames r.gates).zip r.gates)
  Noted.note (.builtFaultTree name gates.length)
  return ⟨name, gates⟩

/-- Builds the fault trees of several records, of which no two may share a
    name; a tree's own errors come first. -/
def buildAll :
    List Identifier → List FaultTreeRecord → Noted BuildError (List FaultTree)
  | _, [] => return []
  | taken, r :: rest => do
    let tree ← build r
    if taken.contains tree.name then
      Noted.fail (.duplicateFaultTree tree.name)
    let trees ← buildAll (tree.name :: taken) rest
    return tree :: trees

end FaultTree
end RiskExchange.Model
