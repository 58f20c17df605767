import RiskExchange.Text.Unsigned

/-! # Arguments — from words to a command

    The words of a command line are read from left to right. Options belong to
    the scope at which they stand, before the command's name or behind it; two
    of them are known at both, and the inner one wins. A request for help ends
    the reading, unless something before it is wrong.

    A value that shares its option's word is judged at once. One in a word of
    its own is judged when the next option is met, so a value right before a
    command's name is judged only after what is behind the name. -/

namespace RiskExchange.CommandLine

/-! ## Options -/

/-- The options. -/
inductive Flag where
  | verbose
  | config
  | output
  | store
  | indent
  | help
  | version
  deriving DecidableEq, Repr

/-- Where words stand: before a command's name, or behind it. -/
inductive Scope where
  | top
  | convert
  | encode
  deriving DecidableEq, Repr

/-- The long name of an option. -/
def Flag.long : Flag → String
  | .verbose => "verbose"
  | .config => "config"
  | .output => "output"
  | .store => "store"
  | .indent => "indent"
  | .help => "help"
  | .version => "version"

/-- The letter of an option, if it has one. -/
def Flag.letter? : Flag → Option Char
  | .verbose => some 'v'
  | .config => some 'c'
  | .output => some 'o'
  | .help => some 'h'
  | .version => some 'V'
  | .store | .indent => none

/-- The option has a value. -/
def Flag.takesValue : Flag → Bool
  | .config | .output | .store | .indent => true
  | _ => false

/-- The options of a scope. -/
def Scope.flags : Scope → List Flag
  | .top => [.verbose, .config, .help, .version]
  | .convert => [.output, .verbose, .config, .store, .indent, .help]
  | .encode => [.verbose, .config, .help]

/-! ## Words -/

/-- What a word with a dash in front says. -/
inductive Sign where
  /-- An option without a value; `long` tells how its name was written. -/
  | flag (f : Flag) (long : Bool)
  /-- An option with a value, which may be the next word. -/
  | valued (f : Flag) (value : Option String)
  | unknown
  deriving DecidableEq, Repr

/-- The part of a text before the first `=`, and the part behind it. -/
def splitEquals : List Char → List Char × Option (List Char)
  | [] => ([], none)
  | c :: rest =>
    if c = '=' then ([], some rest)
    else let (name, value) := splitEquals rest; (c :: name, value)

/-- A word behind two dashes. -/
def readLong (scope : Scope) (s : List Char) : Sign :=
  let (name, value) := splitEquals s
  match scope.flags.find? (·.long == String.ofList name) with
  | none => .unknown
  | some f =>
    if f.takesValue then .valued f (value.map String.ofList)
    else if value.isSome then .unknown
    else .flag f true

/-- The value that follows an option's letter in its word. -/
def attached : List Char → Option String
  | [] => none
  | '=' :: rest => some (String.ofList rest)
  | s => some (String.ofList s)

/-- A word behind one dash: letters up to the first that takes a value. -/
def readLetters (scope : Scope) : List Char → List Sign
  | [] => []
  | c :: rest =>
    match scope.flags.find? (·.letter? == some c) with
    | none => [.unknown]
    | some f =>
      if f.takesValue then [.valued f (attached rest)]
      else .flag f false :: readLetters scope rest

/-- A word, by the dashes in front of it. -/
inductive Word where
  /-- Two dashes alone: only plain words follow. -/
  | endOfOptions
  | signs (s : List Sign)
  | plain
  deriving DecidableEq, Repr

/-- What a word is. A dash alone is a plain word. -/
def Word.of (scope : Scope) (s : String) : Word :=
  match s.toList with
  | ['-', '-'] => .endOfOptions
  | '-' :: '-' :: name => .signs [readLong scope name]
  | '-' :: c :: letters => .signs (readLetters scope (c :: letters))
  | _ => .plain

/-! ## One scope -/

/-- What has been read at a scope; values as they are written, in order. -/
structure Draft where
  verbosity : Option Nat := none
  configs : List String := []
  outputs : List String := []
  stores : List String := []
  indents : List String := []
  values : List String := []
  deriving DecidableEq, Repr

namespace Draft

/-- The draft with one more value of an option. -/
def addValue (d : Draft) (f : Flag) (value : String) : Draft :=
  match f with
  | .config => { d with configs := d.configs ++ [value] }
  | .output => { d with outputs := d.outputs ++ [value] }
  | .store => { d with stores := d.stores ++ [value] }
  | .indent => { d with indents := d.indents ++ [value] }
  | _ => d

/-- The draft with one more mention of verbosity. -/
def addVerbose (d : Draft) : Draft :=
  { d with verbosity := some (d.verbosity.getD 0 + 1) }

/-- The draft with one more plain word. -/
def addPlain (d : Draft) (value : String) : Draft :=
  { d with values := d.values ++ [value] }

/-- At most one path is given, and it is not empty. -/
def onePath : List String → Bool
  | [] => true
  | [p] => p ≠ ""
  | _ => false

/-- The unsigned 64-bit number that a word denotes. -/
def number? (s : String) : Option Nat :=
  (Text.readUnsigned Text.maxWord64 s.toList).toOption

/-- At most one number is given. -/
def oneNumber : List String → Bool
  | [] => true
  | [n] => (number? n).isSome
  | _ => false

/-- The plain words of a scope: none, one path, or numbers. -/
def plainOk (scope : Scope) (values : List String) : Bool :=
  match scope with
  | .top => values.isEmpty
  | .convert => onePath values
  | .encode => values.all fun v => (number? v).isSome

/-- Nothing read so far is wrong. -/
def ok (d : Draft) (scope : Scope) : Bool :=
  onePath d.configs && onePath d.outputs && onePath d.stores
    && oneNumber d.indents && plainOk scope d.values

end Draft

/-- How the reading of a scope ends. -/
inductive Reading where
  | done (d : Draft)
  /-- A command's name is met; the words behind it are left. -/
  | command (d : Draft) (name : String) (rest : List String)
  | help (long : Bool)
  | version
  | wrong
  deriving DecidableEq, Repr

/-- The names that end the reading before a command. -/
def commandNames : List String := ["convert", "encode", "help"]

/-- The effect of signs: a draft, and the option that waits for its value; or
    the end of the reading. -/
def applySigns (scope : Scope) :
    Draft → List Sign → Except Reading (Draft × Option Flag)
  | d, [] => .ok (d, none)
  | d, s :: rest =>
    if !d.ok scope then .error .wrong
    else match s with
      | .unknown => .error .wrong
      | .flag .help long => .error (.help long)
      | .flag .version _ => .error .version
      | .flag _ _ => applySigns scope d.addVerbose rest
      | .valued f (some value) =>
        let d := d.addValue f value
        if d.ok scope then applySigns scope d rest else .error .wrong
      | .valued f none => .ok (d, some f)

/-- Reads words; behind two dashes all of them are plain. Before a command's
    name no plain word has a meaning. -/
def readWords (scope : Scope) : Bool → Draft → List String → Reading
  | _, d, [] => .done d
  | true, d, w :: rest =>
    if scope = .top then .wrong else readWords scope true (d.addPlain w) rest
  | false, d, w :: rest =>
    if scope = .top ∧ commandNames.contains w then .command d w rest
    else match Word.of scope w with
      | .endOfOptions => readWords scope true d rest
      | .plain =>
        if scope = .top then .wrong
        else readWords scope false (d.addPlain w) rest
      | .signs signs =>
        match applySigns scope d signs with
        | .error ending => ending
        | .ok (d, none) => readWords scope false d rest
        | .ok (d, some f) =>
          match rest with
          | [] => .wrong
          | value :: rest =>
            if Word.of scope value = .plain then
              readWords scope false (d.addValue f value) rest
            else .wrong

/-! ## The whole line -/

/-- A command with its own options. -/
inductive Command where
  | convert (input : String) (output store : Option String)
      (indent : Option Nat)
  | encode (terms : List Nat)
  deriving DecidableEq, Repr

/-- A command and the options that every command has. -/
structure Invocation where
  verbosity : Nat
  config : String
  command : Command
  deriving DecidableEq, Repr

/-- What help is asked about. -/
inductive Topic where
  | program
  | convert (long : Bool)
  | encode
  | help
  deriving DecidableEq, Repr

/-- What a command line asks for. -/
inductive Demand where
  | run (i : Invocation)
  | help (t : Topic)
  | version
  | wrong
  deriving DecidableEq, Repr

/-- The file that the settings are in unless another one is named. -/
def defaultConfig : String := "pramef.toml"

/-- The command of a scope's draft. -/
def Draft.command? (d : Draft) : Scope → Option Command
  | .top => none
  | .convert => match d.values with
    | [input] => some (.convert input d.outputs.head? d.stores.head?
        (d.indents.head?.bind Draft.number?))
    | _ => none
  | .encode => match d.values with
    | [] => none
    | values => (values.mapM Draft.number?).map .encode

/-- The topic of help at a scope. -/
def Scope.topic (long : Bool) : Scope → Topic
  | .top => .program
  | .convert => .convert long
  | .encode => .encode

/-- What the words behind a command's name ask for, given those before it. -/
def readCommand (outer : Draft) (scope : Scope) (words : List String) : Demand :=
  match readWords scope false {} words with
  | .help long => .help (scope.topic long)
  | .version | .wrong | .command _ _ _ => .wrong
  | .done inner =>
    match inner.command? scope with
    | none => .wrong
    | some command =>
      if inner.ok scope ∧ outer.ok .top then
        .run {
          verbosity := (inner.verbosity.orElse fun _ => outer.verbosity).getD 0
          config := (inner.configs.head?.orElse fun _ => outer.configs.head?)
            |>.getD defaultConfig
          command := command }
      else .wrong

/-- What the words behind `help` ask for. -/
def readTopic : List String → Demand
  | [] => .help .program
  | ["convert"] => .help (.convert true)
  | ["encode"] => .help .encode
  | ["help"] => .help .help
  | _ => .wrong

/-- What a command line asks for. -/
def Demand.ofWords (words : List String) : Demand :=
  match readWords .top false {} words with
  | .done _ | .wrong => .wrong
  | .help _ => .help .program
  | .version => .version
  | .command outer name rest =>
    if name = "convert" then readCommand outer .convert rest
    else if name = "encode" then readCommand outer .encode rest
    else readTopic rest

end RiskExchange.CommandLine
