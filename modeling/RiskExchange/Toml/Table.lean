import RiskExchange.Toml.Value

/-! # Tables — where headers and dotted keys may add something

    A header makes a table once, and may pass through any table that is not
    written between braces. A dotted key adds only to tables that dotted keys
    have made; on the way there it may pass through a table that has no header
    of its own, and through the last table of an array. No key is set twice. -/

namespace RiskExchange.Toml

/-- The value of a key. -/
def lookup (key : String) : Members → Option Value
  | [] => none
  | (k, v) :: rest => if k = key then some v else lookup key rest

/-- The members with the value of a key replaced or added. -/
def set (key : String) (v : Value) : Members → Members
  | [] => [(key, v)]
  | (k, w) :: rest => if k = key then (k, v) :: rest else (k, w) :: set key v rest

/-- Changes the last table of an array of tables. -/
def changeLast (f : Members → Option Members) :
    List Members → Option (List Members)
  | [] => none
  | [last] => (f last).map ([·])
  | first :: rest => (changeLast f rest).map (first :: ·)

/-- Changes the table at a key, on the way of a header: one that is missing is
    made, and of an array of tables it is the last. -/
def passThrough (key : String) (f : Members → Option Members) (ms : Members) :
    Option Members :=
  match lookup key ms with
  | none => (f []).map fun sub => set key (.table .implied sub) ms
  | some (.table .inline _) => none
  | some (.table origin sub) =>
    (f sub).map fun sub => set key (.table origin sub) ms
  | some (.tables elements) =>
    (changeLast f elements).map fun elements => set key (.tables elements) ms
  | some _ => none

/-- Makes the table of a header. -/
def openTable (ms : Members) : List String → Option Members
  | [] => none
  | [key] =>
    match lookup key ms with
    | none => some (set key (.table .header []) ms)
    | some (.table .implied sub) => some (set key (.table .header sub) ms)
    | some _ => none
  | key :: rest => passThrough key (openTable · rest) ms

/-- Adds a table to the array of tables of a header. -/
def appendTable (ms : Members) : List String → Option Members
  | [] => none
  | [key] =>
    match lookup key ms with
    | none => some (set key (.tables [[]]) ms)
    | some (.tables elements) =>
      some (set key (.tables (elements ++ [[]])) ms)
    | some _ => none
  | key :: rest => passThrough key (appendTable · rest) ms

/-- Changes the table that the last header opened. -/
def changeAt (f : Members → Option Members) (ms : Members) :
    List String → Option Members
  | [] => f ms
  | key :: rest => passThrough key (changeAt f · rest) ms

/-- Adds a value at a dotted key. -/
def insertDotted (v : Value) (ms : Members) : List String → Option Members
  | [] => none
  | [key] =>
    match lookup key ms with
    | none => some (set key v ms)
    | some _ => none
  | key :: rest =>
    match lookup key ms with
    | none =>
      (insertDotted v [] rest).map fun sub => set key (.table .dotted sub) ms
    | some (.table origin sub) =>
      if origin = .dotted ∨ (origin = .implied ∧ rest.length ≠ 1) then
        (insertDotted v sub rest).map fun sub =>
          set key (.table origin sub) ms
      else none
    | some (.tables elements) =>
      if rest.length = 1 then none
      else (changeLast (insertDotted v · rest) elements).map fun elements =>
        set key (.tables elements) ms
    | some _ => none

end RiskExchange.Toml
