/-! # Disks — files and directories by their places

    A disk maps places to entries. A place is the list of names that leads to
    it from the root; the root is always a directory. -/

namespace RiskExchange

/-- The names that lead from the root to an entry. -/
abbrev Place := List String

/-- What stands at a place. -/
inductive Entry where
  | file (content : ByteArray)
  | directory

instance : DecidableEq Entry
  | .file a, .file b => decidable_of_iff (a.data = b.data)
      ⟨fun h => congrArg Entry.file (ByteArray.ext h),
        fun h => congrArg ByteArray.data (Entry.file.inj h)⟩
  | .file _, .directory => isFalse (nomatch ·)
  | .directory, .file _ => isFalse (nomatch ·)
  | .directory, .directory => isTrue rfl

/-- Files and directories, and the directory in which relative paths start. -/
structure Disk where
  entries : List (Place × Entry)
  here : Place
  deriving DecidableEq

namespace Disk

/-- A disk with nothing on it. -/
def empty : Disk := ⟨[], []⟩

/-- The entry at a place. -/
def get? (d : Disk) (p : Place) : Option Entry :=
  if p = [] then some .directory else d.entries.lookup p

/-- A list of entries with the one at a place replaced or added. -/
def putIn (p : Place) (e : Entry) : List (Place × Entry) → List (Place × Entry)
  | [] => [(p, e)]
  | (q, f) :: rest => if q = p then (p, e) :: rest else (q, f) :: putIn p e rest

/-- The disk with an entry at a place. -/
def put (d : Disk) (p : Place) (e : Entry) : Disk :=
  { d with entries := putIn p e d.entries }

/-- The disk without the entry at a place. -/
def erase (d : Disk) (p : Place) : Disk :=
  { d with entries := d.entries.filter (·.1 ≠ p) }

/-- A name longer than any on the disk and than the given texts, so that it is
    none of theirs. -/
def freshName (d : Disk) (texts : List String) : String :=
  let names := texts ++ d.entries.flatMap (·.1)
  let longest := (names.map (·.length)).foldl max 0
  ".tmp" ++ String.ofList (List.replicate longest '0')

end Disk
end RiskExchange
