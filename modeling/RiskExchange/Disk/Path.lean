/-! # Paths — texts with slashes, taken apart without looking at a disk

    A path is kept as it was given, because messages show it so. What it says
    by itself is decided on its segments, the texts between slashes: empty ones
    and single dots behind the first say nothing. -/

namespace RiskExchange.Disk.Path

/-- The texts between slashes; there is at least one. -/
def splitSlashes : List Char → List (List Char)
  | [] => [[]]
  | c :: rest =>
    match splitSlashes rest with
    | [] => [[c]]
    | first :: others =>
      if c = '/' then [] :: first :: others else (c :: first) :: others

/-- Segments joined with slashes. -/
def joinSlashes (segments : List (List Char)) : List Char :=
  List.intercalate ['/'] segments

/-- The segments of a path. -/
def segments (path : String) : List (List Char) := splitSlashes path.toList

/-- The segment says nothing behind another one. -/
def isVoid (segment : List Char) : Bool := segment == [] || segment == ['.']

/-- The segments without those at the end that say nothing. -/
def trimEnd : List (List Char) → List (List Char)
  | [] => []
  | first :: rest => first :: (rest.reverse.dropWhile isVoid).reverse

/-- The path with the given segments; a single empty one behind which others
    stood is the root. -/
def ofSegments : List (List Char) → String
  | [[]] => "/"
  | segments => String.ofList (joinSlashes segments)

/-- What a path names when a part of it is dropped from the end: nothing for
    the root and for the empty path, the empty path for a single segment. -/
def parent? (path : String) : Option String :=
  match trimEnd (segments path) with
  | [] => none
  | [first] => if first = [] then none else some ""
  | first :: rest => some (ofSegments (trimEnd (first :: rest.dropLast)))

/-- The paths that lead to a path, itself first, up to but without the empty
    one; at most as many as given. -/
def ancestorsUpTo : Nat → String → List String
  | 0, _ => []
  | n + 1, path =>
    if path = "" then []
    else path :: match parent? path with
      | some up => ancestorsUpTo n up
      | none => []

/-- The paths that lead to a path, itself first, without the empty one. -/
def ancestors (path : String) : List String :=
  ancestorsUpTo ((segments path).length + 1) path

/-- The directory to look in for a file, the working directory for a name. -/
def directoryOf (path : String) : String :=
  match parent? path with
  | some up => if up = "" then "." else up
  | none => "."

/-! ## Extensions -/

/-- A file name without its extension: what stands before the last dot, unless
    the dot is the first character or there is none. -/
def stem (name : List Char) : List Char :=
  match (name.reverse.dropWhile (· ≠ '.')).reverse with
  | [] => name
  | ['.'] => name
  | upToDot => upToDot.dropLast

/-- The segment is a name, neither empty nor made of one or two dots. -/
def isName (segment : List Char) : Bool :=
  !(segment == [] || segment == ['.'] || segment == ['.', '.'])

/-- A name of which only the dots are left when its extension goes: two of
    them, which then name the directory above. -/
def isDotted (name : List Char) : Bool := stem name == ['.']

/-- The path with the extension of its last name replaced; unchanged if it
    does not end with a name. The old extension goes first, and the new one
    needs a name to stand at, so behind the last slash `..x` becomes `..`. -/
def withExtension (path extension : String) : String :=
  let parts := trimEnd (segments path)
  match parts.getLast? with
  | some last =>
    if !isName last then path
    else if isDotted last ∧ parts = segments path then
      String.ofList (joinSlashes (parts.dropLast ++ [['.', '.']]))
    else
      String.ofList (joinSlashes
        (parts.dropLast ++ [stem last ++ '.' :: extension.toList]))
  | none => path

/-! ## Equality -/

/-- The segments that say something: whether the path starts at the root, and
    the segments without empty ones and without dots behind the first. -/
def components (path : String) : Bool × List (List Char) :=
  match segments path with
  | [] => (false, [])
  | [first] => (false, if first = [] then [] else [first])
  | first :: rest =>
    (first == [], (if first = [] then [] else [first])
      ++ rest.filter (!isVoid ·))

/-- Two spellings of one path. -/
def same (a b : String) : Bool := components a == components b

end RiskExchange.Disk.Path
