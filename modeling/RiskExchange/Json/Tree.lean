import RiskExchange.Json.Token

/-! # Trees — the nesting of a text, down to the first fault

    `parse` turns tokens into a tree in one pass over a stack of open brackets.
    A malformed text has a tree too: it stops where the text goes wrong, with a
    broken value or an unfinished bracket there, and nothing to the right of
    it. A reader of trees that goes from left to right therefore meets the
    faults of shape and of spelling in the order of the text. -/

namespace RiskExchange.Json

/-- How the elements of an array or the members of an object end. -/
inductive Close where
  /-- With the closing bracket. -/
  | closed
  /-- The text ends where a comma or the bracket is due. -/
  | endOfText
  /-- Something else stands where a comma or the bracket is due. -/
  | unexpected
  /-- The bracket follows a comma. -/
  | trailingComma
  /-- The text ends after a comma between members. -/
  | endAfterComma
  /-- A member does not begin with a string. -/
  | badKey
  deriving DecidableEq, Repr

/-- The tree of a text. -/
inductive Tree where
  | null
  | bool (b : Bool)
  | number (n : NumberLiteral)
  | string (s : StringLiteral)
  | array (items : List Tree) (close : Close)
  | object (members : List (StringLiteral × Tree)) (close : Close)
  /-- No value can be read here. -/
  | broken (b : Break)

/-- A whole text: its value, and whether something follows it. -/
structure Document where
  root : Tree
  trailing : Bool

/-- An open bracket with what has been read inside it, last first. -/
inductive Frame where
  | array (items : List Tree)
  | object (members : List (StringLiteral × Tree))
  | member (members : List (StringLiteral × Tree)) (key : StringLiteral)

/-- What may come next. -/
inductive Due where
  | value
  | firstItem
  | itemAfterComma
  | afterItem
  | firstKey
  | keyAfterComma
  | colon
  | afterMember
  deriving DecidableEq, Repr

/-- The frame with one more value inside. -/
def Frame.add (v : Tree) : Frame → Frame
  | .array items => .array (v :: items)
  | .object members => .object members
  | .member members key => .object ((key, v) :: members)

/-- The frame as a value that ends as given. -/
def Frame.toTree (close : Close) : Frame → Tree
  | .array items => .array items.reverse close
  | .object members => .object members.reverse close
  | .member members _ => .object members.reverse close

/-- The whole value, when reading stops at `v` inside the open brackets. -/
def abandon (v : Tree) : List Frame → Tree
  | [] => v
  | frame :: outer => abandon ((frame.add v).toTree .closed) outer

/-- Reading stops for good at a broken value. -/
def breakOff (b : Break) (stack : List Frame) : Document :=
  ⟨abandon (.broken b) stack, false⟩

/-- Reading stops for good at an unfinished bracket. -/
def leaveOpen (close : Close) : List Frame → Document
  | [] => ⟨.broken (.always .expectedValue), false⟩
  | frame :: outer => ⟨abandon (frame.toTree close) outer, false⟩

/-- The state after a token: reading goes on, the value is complete, or reading
    has stopped. -/
inductive Progress where
  | more (stack : List Frame) (due : Due)
  | complete (root : Tree)
  | stopped (d : Document)

/-- A value is complete inside the open brackets. -/
def accept (v : Tree) : List Frame → Progress
  | [] => .complete v
  | frame :: outer =>
    let due := match frame with
      | .array _ => Due.afterItem
      | .object _ | .member _ _ => Due.afterMember
    .more (frame.add v :: outer) due

/-- The innermost bracket is closed. -/
def closeBracket : List Frame → Progress
  | [] => .stopped ⟨.broken (.always .expectedValue), false⟩
  | frame :: outer => accept (frame.toTree .closed) outer

/-- A token where a value is due. -/
def stepValue (stack : List Frame) : Token → Progress
  | .null => accept .null stack
  | .bool b => accept (.bool b) stack
  | .number n => accept (.number n) stack
  | .string s => accept (.string s) stack
  | .openArray => .more (.array [] :: stack) .firstItem
  | .openObject => .more (.object [] :: stack) .firstKey
  | .broken b => .stopped (breakOff b stack)
  | _ => .stopped (breakOff (.always .expectedValue) stack)

/-- A key has been read in the innermost object. -/
def acceptKey (key : StringLiteral) : List Frame → Progress
  | .object members :: outer => .more (.member members key :: outer) .colon
  | stack => .stopped (leaveOpen .badKey stack)

/-- The next token. -/
def stepTree (stack : List Frame) : Due → Token → Progress
  | .value, t => stepValue stack t
  | .firstItem, .closeArray => closeBracket stack
  | .firstItem, t => stepValue stack t
  | .itemAfterComma, .closeArray => .stopped (leaveOpen .trailingComma stack)
  | .itemAfterComma, t => stepValue stack t
  | .afterItem, .comma => .more stack .itemAfterComma
  | .afterItem, .closeArray => closeBracket stack
  | .afterItem, _ => .stopped (leaveOpen .unexpected stack)
  | .firstKey, .closeObject => closeBracket stack
  | .firstKey, .string s => acceptKey s stack
  | .firstKey, _ => .stopped (leaveOpen .badKey stack)
  | .keyAfterComma, .closeObject => .stopped (leaveOpen .trailingComma stack)
  | .keyAfterComma, .string s => acceptKey s stack
  | .keyAfterComma, _ => .stopped (leaveOpen .badKey stack)
  | .colon, .colon => .more stack .value
  | .colon, _ => .stopped (breakOff (.always .expectedColon) stack)
  | .afterMember, .comma => .more stack .keyAfterComma
  | .afterMember, .closeObject => closeBracket stack
  | .afterMember, _ => .stopped (leaveOpen .unexpected stack)

/-- The text ends. -/
def endOfTokens (stack : List Frame) : Due → Document
  | .value | .itemAfterComma => breakOff (.always .endInValue) stack
  | .colon => breakOff (.always .endInObject) stack
  | .keyAfterComma => leaveOpen .endAfterComma stack
  | .firstItem | .afterItem | .firstKey | .afterMember =>
    leaveOpen .endOfText stack

/-- The document of the tokens from a state on. -/
def parseFrom (stack : List Frame) (due : Due) : List Token → Document
  | [] => endOfTokens stack due
  | t :: rest =>
    match stepTree stack due t with
    | .more stack due => parseFrom stack due rest
    | .complete root => ⟨root, !rest.isEmpty⟩
    | .stopped d => d

/-- The document of a list of tokens. -/
def parse (tokens : List Token) : Document := parseFrom [] .value tokens

/-- The document of a text. -/
def Document.read (text : List Text.Glyph) : Document := parse (lex text)

end RiskExchange.Json
