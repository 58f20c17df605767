import RiskExchange.CommandLine.Run

/-! # The program — a command line on the real file system

    The files that a command line can touch are taken from the file system onto
    a disk, the command line is run there, and what it has changed is written
    back. Nothing is decided here. -/

namespace RiskExchange.CommandLine

/-- The text of a place as an absolute path. -/
def absolute (p : Place) : String := "/" ++ String.intercalate "/" p

/-- The places on the way of a list of names from a place, one after another;
    two dots lead up. -/
def placesOnTheWay : Place → List String → List Place
  | p, [] => [p]
  | p, name :: rest =>
    p :: placesOnTheWay
      (if name = "." then p else if name = ".." then p.dropLast else p ++ [name])
      rest

/-- The places that a path leads through. -/
def placesOf (here : Place) (path : String) : List Place :=
  let segments := Disk.Path.segments path
  let start := if segments.head? = some [] then [] else here
  placesOnTheWay start ((segments.filter (· ≠ [])).map String.ofList)

/-- What stands at a place of the file system. -/
def entryAt? (p : Place) : IO (Option Entry) := do
  let path := (← IO.currentDir) / absolute p
  if ← path.isDir then return some .directory
  if ← path.pathExists then return some (.file (← IO.FS.readBinFile path))
  return none

/-- The disk with what stands at some places of the file system. -/
def capture (d : Disk) : List Place → IO Disk
  | [] => return d
  | p :: rest => do
    match ← entryAt? p with
    | some e => capture (if p = [] then d else d.put p e) rest
    | none => capture d rest

/-- The paths that a command line names. -/
def Command.paths : Command → List String
  | .convert input output store _ =>
    [input, output.getD (Disk.Path.withExtension input "xml")] ++ store.toList
  | .encode _ => []

/-- The paths that a command line can touch, given the disk that its settings
    are read from. -/
def pathsOf (i : Invocation) (d : Disk) : List String :=
  let named := i.config :: i.command.paths
  match ((Settings.loadOrDefault i.config).run d).2.result with
  | .ok s => s.sequenceStore :: named
  | .error _ => named

/-- The disk on which a command line is run. -/
def diskFor (words : List String) (here : Place) : IO Disk := do
  let d : Disk := ⟨[], here⟩
  match Demand.ofWords words with
  | .run i =>
    let d ← capture d (placesOf here i.config)
    capture d ((pathsOf i d).flatMap (placesOf here))
  | _ => return d

/-- Writes one entry to the file system. -/
def writeEntry (p : Place) : Entry → IO Unit
  | .directory => IO.FS.createDirAll (absolute p)
  | .file content => IO.FS.writeBinFile (absolute p) content

/-- Brings the file system from one disk to another. -/
def writeBack (before after : Disk) : IO Unit := do
  for (p, e) in after.entries do
    if before.get? p ≠ some e then writeEntry p e
  for (p, _) in before.entries do
    if (after.get? p).isNone then IO.FS.removeFile (absolute p)

end RiskExchange.CommandLine

open RiskExchange RiskExchange.CommandLine in
/-- Runs the program: what it says goes to standard output, the log and the
    failure to standard error. -/
def main (words : List String) : IO UInt32 := do
  let here := ((← IO.currentDir).toString.splitOn "/").filter (· ≠ "")
  let before ← diskFor words here
  let (after, ending) := CommandLine.run words before
  writeBack before after
  for n in ending.log do
    IO.eprintln (n.level.text ++ " " ++ n.text)
  IO.print ending.said
  match ending.failure with
  | some f => IO.eprintln ("Error: " ++ f.text)
  | none => if ending.status = 2 then IO.eprint programHelp
  return ending.status.toUInt32
