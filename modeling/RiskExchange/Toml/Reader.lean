import RiskExchange.Toml.Scalar
import RiskExchange.Toml.Table

/-! # Documents — statements on lines, and the table that they make

    A document is a list of statements: headers, headers of array elements, and
    values of dotted keys. Reading them and carrying them out are separate; a
    document is in order if both succeed. -/

namespace RiskExchange.Toml

/-! ## Space and comments -/

/-- The text without blanks in front. -/
def skipSpace (s : List Char) : List Char := s.dropWhile isSpace

/-- The text without blanks, line breaks and comments in front; `none` if one
    of those is malformed. -/
def skipFill : Bool → List Char → Option (List Char)
  | _, [] => some []
  | _, '\r' :: '\n' :: rest => skipFill false rest
  | comment, c :: rest =>
    if c = '\n' then skipFill false rest
    else if comment then
      if isPlain c then skipFill true rest else none
    else if isSpace c then skipFill false rest
    else if c = '#' then skipFill true rest
    else some (c :: rest)

/-- The text behind the end of the line, which may hold a comment and nothing
    else. -/
def endLine : Bool → List Char → Option (List Char)
  | _, [] => some []
  | _, '\r' :: '\n' :: rest => some rest
  | comment, c :: rest =>
    if c = '\n' then some rest
    else if comment then
      if isPlain c then endLine true rest else none
    else if isSpace c then endLine false rest
    else if c = '#' then endLine true rest
    else none

/-! ## Keys -/

/-- The character may stand in a key without quotes. -/
def isBare (c : Char) : Bool := c.isAlphanum || c == '_' || c == '-'

/-- A key in front, and the rest. -/
def readKey (s : List Char) : Option (String × List Char) :=
  match readLine? s with
  | some (key, rest) => some (String.ofList key, rest)
  | none =>
    let key := s.takeWhile isBare
    if key = [] then none else some (String.ofList key, s.dropWhile isBare)

/-- A dotted key in front with blanks around it, and the rest; of at most so
    many parts. -/
def readPathUpTo : Nat → List Char → Option (List String × List Char)
  | 0, _ => none
  | n + 1, s => do
    let (key, rest) ← readKey (skipSpace s)
    match skipSpace rest with
    | '.' :: rest =>
      let (keys, rest) ← readPathUpTo n rest
      return (key :: keys, rest)
    | rest => return ([key], rest)

/-- The parts that a dotted key may have at most. -/
def keyLimit : Nat := 80

/-- A dotted key in front with blanks around it, and the rest. -/
def readPath (s : List Char) : Option (List String × List Char) :=
  readPathUpTo keyLimit s

/-! ## Values -/

/-- How deep values may nest. -/
def depthLimit : Nat := 80

mutual

/-- A value in front, and the rest; at most so many steps, and nested to at
    most so many levels. -/
def readValue : Nat → Nat → List Char → Option (Value × List Char)
  | 0, _, _ => none
  | steps + 1, depth, s =>
    match s with
    | '[' :: rest =>
      if depth = 0 then none else readItems steps (depth - 1) [] rest
    | '\x7b' :: rest =>
      if depth = 0 then none else readPairs steps (depth - 1) [] rest
    | s =>
      match readString? s with
      | some (text, rest) => some (.string (String.ofList text), rest)
      | none => do
        let (text, rest) := takeScalar s
        let v ← scalar? text
        return (v, rest)

/-- The elements of an array up to its bracket, given those read before. -/
def readItems :
    Nat → Nat → List Value → List Char → Option (Value × List Char)
  | 0, _, _, _ => none
  | steps + 1, depth, done, s => do
    match ← skipFill false s with
    | ']' :: rest => return (.array done.reverse, rest)
    | s =>
      let (v, rest) ← readValue steps depth s
      match ← skipFill false rest with
      | ',' :: rest => readItems steps depth (v :: done) rest
      | ']' :: rest => return (.array (v :: done).reverse, rest)
      | _ => none

/-- The members of an inline table up to its brace, given those read before.
    Lines may end anywhere but within a dotted key. -/
def readPairs : Nat → Nat → Members → List Char → Option (Value × List Char)
  | 0, _, _, _ => none
  | steps + 1, depth, done, s => do
    match ← skipFill false s with
    | '\x7d' :: rest => return (.table .inline done, rest)
    | s =>
      let (path, rest) ← readPath s
      let rest ← behind? '=' (← skipFill false rest)
      let (v, rest) ← readValue steps depth (← skipFill false rest)
      let done ← insertDotted v done path
      match ← skipFill false rest with
      | ',' :: rest => readPairs steps depth done rest
      | '\x7d' :: rest => return (.table .inline done, rest)
      | _ => none

end

/-! ## Statements -/

/-- One statement of a document. -/
inductive Statement where
  | header (path : List String)
  | element (path : List String)
  | pair (path : List String) (v : Value)

/-- A statement in front, and the rest. -/
def readStatement (s : List Char) : Option (Statement × List Char) :=
  match s with
  | '[' :: '[' :: rest => do
    let (path, rest) ← readPath rest
    let rest ← behind? ']' rest
    return (.element path, ← behind? ']' rest)
  | '[' :: rest => do
    let (path, rest) ← readPath rest
    return (.header path, ← behind? ']' rest)
  | s => do
    let (path, rest) ← readPath s
    let rest ← behind? '=' rest
    let (v, rest) ← readValue (s.length + 1) depthLimit (skipSpace rest)
    return (.pair path v, rest)

/-- The statements of a text; at most so many. -/
def readStatementsUpTo : Nat → List Char → Option (List Statement)
  | 0, _ => none
  | n + 1, s => do
    match ← skipFill false s with
    | [] => return []
    | s =>
      let (statement, rest) ← readStatement s
      let statements ← readStatementsUpTo n (← endLine false rest)
      return statement :: statements

/-- The text without a byte order mark. -/
def dropMark : List Char → List Char
  | '\uFEFF' :: rest => rest
  | s => s

/-- The statements of a text. -/
def readStatements (s : List Char) : Option (List Statement) :=
  let s := dropMark s
  readStatementsUpTo (s.length + 1) s

/-- What has been made of the statements so far: the whole table, and the path
    of the header that values are added to. -/
structure Draft where
  members : Members
  path : List String

/-- Carries out one statement. -/
def Draft.apply (d : Draft) : Statement → Option Draft
  | .header path => (openTable d.members path).map (⟨·, path⟩)
  | .element path => (appendTable d.members path).map (⟨·, path⟩)
  | .pair path v =>
    (changeAt (insertDotted v · path) d.members d.path).map (⟨·, d.path⟩)

/-- Carries out statements one after the other. -/
def Draft.applyAll (d : Draft) : List Statement → Option Draft
  | [] => some d
  | s :: rest => do applyAll (← d.apply s) rest

/-- The table of a document; `none` if the text is not TOML. -/
def read? (text : String) : Option Members := do
  let statements ← readStatements text.toList
  let d ← Draft.applyAll ⟨[], []⟩ statements
  return d.members

end RiskExchange.Toml
