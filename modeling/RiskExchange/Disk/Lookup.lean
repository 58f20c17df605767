import RiskExchange.Disk.Basic
import RiskExchange.Disk.Failure
import RiskExchange.Disk.Path

/-! # Lookup — from a path to a place on a disk

    Every step but the last has to lead into a directory. The last one is left
    open, since operations differ in what they allow there, and in whether they
    look at it before they look at the slash behind it. -/

namespace RiskExchange.Disk

/-- The longest name of an entry, in bytes. -/
def maxNameSize : Nat := 255

/-- The longest path, in bytes. -/
def maxPathSize : Nat := 4095

/-- The last step of a path. -/
inductive LastStep where
  | name (n : String)
  /-- One dot for the directory itself, or two for the one above it. -/
  | dots (step : String)
  | root
  deriving DecidableEq, Repr

/-- Where a path leads: a directory, the last step from there, and whether a
    slash follows. -/
structure Location where
  directory : Place
  last : LastStep
  slash : Bool
  deriving DecidableEq, Repr

/-- One step from a directory into another one. -/
def enter (d : Disk) (p : Place) (step : String) : Except Failure Place :=
  if step = "." then .ok p
  else if step = ".." then .ok p.dropLast
  else if maxNameSize < step.utf8ByteSize then .error .nameTooLong
  else match d.get? (p ++ [step]) with
    | none => .error .notFound
    | some (.file _) => .error .notDirectory
    | some .directory => .ok (p ++ [step])

/-- Steps from a directory into another one. -/
def walk (d : Disk) : Place → List String → Except Failure Place
  | p, [] => .ok p
  | p, step :: rest => do walk d (← d.enter p step) rest

/-- The last step, which is a name or dots. -/
def lastStep (step : String) : LastStep :=
  if step = "." ∨ step = ".." then .dots step else .name step

/-- The last text between slashes is empty although it is not the only one. -/
def endsWithSlash (path : String) : Bool :=
  match Path.segments path with
  | [] | [_] => false
  | segments => segments.getLast? == some []

/-- Where a path leads. -/
def locate (d : Disk) (path : String) : Except Failure Location := do
  if path.toList.contains '\x00' then throw .nulInPath
  if path = "" then throw .notFound
  if maxPathSize < path.utf8ByteSize then throw .nameTooLong
  let segments := Path.segments path
  let start := if segments.head? = some [] then [] else d.here
  let steps := (segments.filter (· ≠ [])).map String.ofList
  match steps.getLast? with
  | none => return ⟨start, .root, true⟩
  | some last =>
    let directory ← d.walk start steps.dropLast
    return ⟨directory, lastStep last, endsWithSlash path⟩

/-- The entry of a name in a directory, there or not; no directory is asked
    for a name that is too long. -/
def entryIn (d : Disk) (directory : Place) (name : String) :
    Except Failure (Option Entry) :=
  if maxNameSize < name.utf8ByteSize then .error .nameTooLong
  else .ok (d.get? (directory ++ [name]))

end RiskExchange.Disk
