import Mathlib.Data.List.Forall2
import RiskExchange.Json.Tree
import RiskExchange.Proofs.Json.Numerals

/-! # Grammar — which texts are JSON

    The productions of JSON, with white space between any two tokens. A tree
    keeps how literals are spelled but not the white space, so a tree has many
    spellings and a text has one tree at most. -/

namespace RiskExchange.Json

/-- Nothing but white space. -/
def Blank (s : List Char) : Prop := ∀ c ∈ s, isSpace c = true

/-! ## Strings -/

/-- The text is one step of a string. -/
inductive SpellsPiece : Piece → List Char → Prop where
  | plain {c : Char} (hq : c ≠ '"') (hb : c ≠ '\\') (hc : 0x20 ≤ c.toNat) :
      SpellsPiece (.plain c) [c]
  | short {letter c : Char} (h : shortEscape? letter = some c) :
      SpellsPiece (.short c) ['\\', letter]
  | unit {a b c d : Char} {i j k l : Nat} (ha : hexDigit? (.char a) = some i)
      (hb : hexDigit? (.char b) = some j) (hc : hexDigit? (.char c) = some k)
      (hd : hexDigit? (.char d) = some l) :
      SpellsPiece (.unit (((i * 16 + j) * 16 + k) * 16 + l))
        ['\\', 'u', a, b, c, d]

/-- The text is a string literal. -/
inductive SpellsString : StringLiteral → List Char → Prop where
  | intro {pieces : List Piece} {texts : List (List Char)}
      (h : List.Forall₂ SpellsPiece pieces texts) :
      SpellsString ⟨pieces, .closed⟩ ('"' :: texts.flatten ++ ['"'])

/-! ## Values -/

/-- Texts with commas between them. -/
def commaText : List (List Char) → List Char
  | [] => []
  | s :: rest => s ++ rest.flatMap (',' :: ·)

/-- An element of an array, with the white space around it. -/
structure ItemPart where
  tree : Tree
  before : List Char
  text : List Char
  after : List Char

/-- The element as it is written. -/
def ItemPart.written (p : ItemPart) : List Char := p.before ++ p.text ++ p.after

/-- A member of an object, with the white space around its key and its value. -/
structure MemberPart where
  key : StringLiteral
  tree : Tree
  beforeKey : List Char
  keyText : List Char
  afterKey : List Char
  before : List Char
  text : List Char
  after : List Char

/-- The member as it is written. -/
def MemberPart.written (p : MemberPart) : List Char :=
  p.beforeKey ++ p.keyText ++ p.afterKey ++ ':' :: p.before ++ p.text ++ p.after

/-- The white space around a member's key and value is white space. -/
structure MemberPart.Spaced (p : MemberPart) : Prop where
  beforeKey : Blank p.beforeKey
  afterKey : Blank p.afterKey
  before : Blank p.before
  after : Blank p.after

/-- The text is a value. -/
inductive Spells : Tree → List Char → Prop where
  | null : Spells .null ['n', 'u', 'l', 'l']
  | true : Spells (.bool true) ['t', 'r', 'u', 'e']
  | false : Spells (.bool false) ['f', 'a', 'l', 's', 'e']
  | number {l : NumberLiteral} {s : List Char} (h : SpellsNumber l s) :
      Spells (.number l) s
  | string {l : StringLiteral} {s : List Char} (h : SpellsString l s) :
      Spells (.string l) s
  | emptyArray {space : List Char} (hs : Blank space) :
      Spells (.array [] .closed) ('[' :: space ++ [']'])
  | array {parts : List ItemPart} (hne : parts ≠ [])
      (hs : ∀ p ∈ parts, Blank p.before ∧ Blank p.after)
      (h : ∀ p ∈ parts, Spells p.tree p.text) :
      Spells (.array (parts.map (·.tree)) .closed)
        ('[' :: commaText (parts.map (·.written)) ++ [']'])
  | emptyObject {space : List Char} (hs : Blank space) :
      Spells (.object [] .closed) ('\x7b' :: space ++ ['\x7d'])
  | object {parts : List MemberPart} (hne : parts ≠ [])
      (hs : ∀ p ∈ parts, p.Spaced)
      (hk : ∀ p ∈ parts, SpellsString p.key p.keyText)
      (h : ∀ p ∈ parts, Spells p.tree p.text) :
      Spells (.object (parts.map fun p => (p.key, p.tree)) .closed)
        ('\x7b' :: commaText (parts.map (·.written)) ++ ['\x7d'])

/-- The text is JSON: a value with white space around it. -/
inductive IsJson (t : Tree) : List Char → Prop where
  | intro {before text after : List Char} (hb : Blank before)
      (h : Spells t text) (ha : Blank after) :
      IsJson t (before ++ text ++ after)

end RiskExchange.Json
