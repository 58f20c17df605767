import RiskExchange.Disk.Lookup

/-! # Operations — opening, writing, moving and removing by path

    Each operation looks its path up and then allows or refuses the last step;
    a refused operation leaves the disk as it is, except that `createDirAll`
    keeps the directories it has made. -/

namespace RiskExchange.Disk

/-- The entry that a path names, to be read. -/
def entryAt (d : Disk) (path : String) : Except Failure Entry := do
  let l ← d.locate path
  match l.last with
  | .dots _ | .root => return .directory
  | .name n =>
    match ← d.entryIn l.directory n with
    | none => throw .notFound
    | some .directory => return .directory
    | some (.file content) =>
      if l.slash then throw .notDirectory else return .file content

/-- The content of a file. -/
def readFile (d : Disk) (path : String) : Except Failure ByteArray := do
  match ← d.entryAt path with
  | .file content => return content
  | .directory => throw .isDirectory

/-- The text of a file. -/
def readText (d : Disk) (path : String) : Except Failure String := do
  match String.fromUTF8? (← d.readFile path) with
  | some s => return s
  | none => throw .notText

/-- A directory stands where the path leads. -/
def isDirectory (d : Disk) (path : String) : Bool :=
  match d.entryAt path with
  | .ok .directory => true
  | _ => false

/-- The place of the file that a path names, there or not, for writing. A slash
    behind the name is refused before the name is looked up. -/
def placeToWrite (d : Disk) (path : String) : Except Failure Place := do
  let l ← d.locate path
  match l.last with
  | .dots _ | .root => throw .isDirectory
  | .name n =>
    if l.slash then throw .isDirectory
    match ← d.entryIn l.directory n with
    | some .directory => throw .isDirectory
    | _ => return l.directory ++ [n]

/-- Makes or overwrites a file. -/
def writeFile (d : Disk) (path : String) (content : ByteArray) :
    Except Failure Disk := do
  return d.put (← d.placeToWrite path) (.file content)

/-- Removes a file. -/
def removeFile (d : Disk) (path : String) : Except Failure Disk := do
  let l ← d.locate path
  match l.last with
  | .dots _ | .root => throw .isDirectory
  | .name n =>
    match ← d.entryIn l.directory n with
    | none => throw .notFound
    | some .directory => throw .isDirectory
    | some (.file _) =>
      if l.slash then throw .notDirectory
      else return d.erase (l.directory ++ [n])

/-- Moves the file at a place to where a path leads, over a file if one is
    there. A path with the character NUL is an invalid argument here. -/
def moveFile (d : Disk) (source : Place) (path : String) :
    Except Failure Disk := do
  let some (.file content) := d.get? source | throw .notFound
  if path.toList.contains '\x00' then throw .invalidArgument
  let l ← d.locate path
  match l.last with
  | .dots _ | .root => throw .busy
  | .name n =>
    let target ← d.entryIn l.directory n
    if l.slash then throw .notDirectory
    match target with
    | some .directory => throw .isDirectory
    | _ => return (d.erase source).put (l.directory ++ [n]) (.file content)

/-! ## Directories -/

/-- Makes one directory. -/
def createDir (d : Disk) (path : String) : Except Failure Disk := do
  let l ← d.locate path
  match l.last with
  | .dots _ | .root => throw .alreadyExists
  | .name n =>
    match ← d.entryIn l.directory n with
    | some _ => throw .alreadyExists
    | none => return d.put (l.directory ++ [n]) .directory

/-- A refusal to make a directory does not matter if it is there. -/
def acceptDir (d : Disk) (path : String) (e : Failure) :
    Disk × Except Failure Unit :=
  if d.isDirectory path then (d, .ok ()) else (d, .error e)

/-- Makes a directory, given the paths that lead to it from the last to the
    first: those above it only if they are missing. -/
def createDirs (d : Disk) : List String → Disk × Except Failure Unit
  | [] => (d, .ok ())
  | path :: above =>
    match d.createDir path with
    | .ok made => (made, .ok ())
    | .error .notFound =>
      match d.createDirs above with
      | (d, .error e) => (d, .error e)
      | (d, .ok ()) =>
        match d.createDir path with
        | .ok made => (made, .ok ())
        | .error e => d.acceptDir path e
    | .error e => d.acceptDir path e

/-- Makes a directory and those above it. -/
def createDirAll (d : Disk) (path : String) : Disk × Except Failure Unit :=
  d.createDirs (Path.ancestors path)

/-- The place of the directory to which a path leads. -/
def directoryAt (d : Disk) (path : String) : Except Failure Place := do
  let l ← d.locate path
  match l.last with
  | .root => return l.directory
  | .dots step | .name step => d.enter l.directory step

end RiskExchange.Disk
