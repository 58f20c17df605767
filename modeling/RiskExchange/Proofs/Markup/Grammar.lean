import RiskExchange.Markup.Element

/-! # Grammar — which texts are XML documents

    The productions of XML 1.0 for documents without comments, processing
    instructions, character references, CDATA sections and a document type,
    in which an element has either text or elements inside. `Spells` says that
    a text is one element, with every tag closed in order; `IsDocument` puts
    the declaration in front. A document is well formed (`WellFormed`) if all
    of its characters are allowed besides. -/

namespace RiskExchange.Markup

/-! ## Characters and names -/

/-- The character may stand in a document. -/
def isXmlChar (c : Char) : Bool :=
  let n := c.toNat
  n == 0x09 || n == 0x0A || n == 0x0D || (0x20 ≤ n && n ≤ 0xD7FF)
    || (0xE000 ≤ n && n ≤ 0xFFFD) || (0x10000 ≤ n && n ≤ 0x10FFFF)

/-- White space between and inside tags. -/
def isXmlSpace (c : Char) : Bool :=
  c == ' ' || c == '\t' || c == '\r' || c == '\n'

/-- Nothing but white space. -/
def Spaces (s : List Char) : Prop := ∀ c ∈ s, isXmlSpace c = true

/-- The code points that may begin a name. -/
def nameStartRanges : List (Nat × Nat) :=
  [(0x3A, 0x3A), (0x41, 0x5A), (0x5F, 0x5F), (0x61, 0x7A), (0xC0, 0xD6),
    (0xD8, 0xF6), (0xF8, 0x2FF), (0x370, 0x37D), (0x37F, 0x1FFF),
    (0x200C, 0x200D), (0x2070, 0x218F), (0x2C00, 0x2FEF), (0x3001, 0xD7FF),
    (0xF900, 0xFDCF), (0xFDF0, 0xFFFD), (0x10000, 0xEFFFF)]

/-- The code points that may only go on with one. -/
def nameMoreRanges : List (Nat × Nat) :=
  [(0x2D, 0x2E), (0x30, 0x39), (0xB7, 0xB7), (0x300, 0x36F),
    (0x203F, 0x2040)]

/-- The character lies in one of the ranges. -/
def inRanges (ranges : List (Nat × Nat)) (c : Char) : Bool :=
  ranges.any fun r => r.1 ≤ c.toNat && c.toNat ≤ r.2

/-- The character may begin a name. -/
def isNameStart (c : Char) : Bool := inRanges nameStartRanges c

/-- The character may go on with a name. -/
def isNameChar (c : Char) : Bool :=
  isNameStart c || inRanges nameMoreRanges c

/-- A name. -/
def IsName : List Char → Prop
  | [] => False
  | c :: rest => isNameStart c = true ∧ ∀ d ∈ rest, isNameChar d = true

instance : (n : List Char) → Decidable (IsName n)
  | [] => inferInstanceAs (Decidable False)
  | c :: rest => decidable_of_iff (isNameStart c && rest.all isNameChar)
      (by simp [IsName])

/-! ## Text and values -/

/-- The entities that need no declaration. -/
def entities : List (String × Char) :=
  [("lt", '<'), ("gt", '>'), ("amp", '&'), ("apos", '\''), ("quot", '"')]

/-- What is written stands for a text: each character for itself, but for the
    marks, and each entity for its character. -/
inductive Denotes (marks : List Char) : List Char → List Char → Prop where
  | nil : Denotes marks [] []
  | plain {c : Char} {raw s : List Char} (hc : c ∉ marks)
      (h : Denotes marks raw s) : Denotes marks (c :: raw) (c :: s)
  | entity {e : String × Char} {raw s : List Char} (he : e ∈ entities)
      (h : Denotes marks raw s) :
      Denotes marks ('&' :: e.1.toList ++ ';' :: raw) (e.2 :: s)

/-- The marks that have to be written as entities in a text. -/
def textMarks : List Char := ['<', '&', '>']

/-- The marks that have to be written as entities between quotes. -/
def valueMarks (quote : Char) : List Char := ['<', '&', quote]

/-! ## Tags -/

/-- The attributes in a tag: each behind white space, with its value in single
    or double quotes. -/
inductive SpellsAttributes : Attributes → List Char → Prop where
  | nil : SpellsAttributes [] []
  | cons {name value : String} {rest : Attributes} {quote : Char}
      {before left right raw more : List Char}
      (hne : before ≠ []) (hb : Spaces before) (hn : IsName name.toList)
      (hl : Spaces left) (hr : Spaces right) (hq : quote = '"' ∨ quote = '\'')
      (hv : Denotes (valueMarks quote) raw value.toList)
      (h : SpellsAttributes rest more) :
      SpellsAttributes ((name, value) :: rest)
        (before ++ name.toList ++ left ++ '=' :: right
          ++ quote :: raw ++ quote :: more)

/-- A start tag or an empty element up to how it closes. No attribute is given
    twice. -/
inductive SpellsHead (name : String) (attributes : Attributes) :
    List Char → Prop where
  | intro {body after : List Char} (hn : IsName name.toList)
      (hb : SpellsAttributes attributes body)
      (hd : (attributes.map (·.1)).Nodup) (ha : Spaces after) :
      SpellsHead name attributes ('<' :: name.toList ++ body ++ after)

/-- An end tag. -/
inductive SpellsEnd (name : String) : List Char → Prop where
  | intro {after : List Char} (ha : Spaces after) :
      SpellsEnd name ('<' :: '/' :: name.toList ++ after ++ ['>'])

/-! ## Elements and documents -/

/-- An element inside another one, with the white space in front of it. -/
structure Child where
  element : Element
  space : List Char
  text : List Char

/-- What elements that follow each other are written as. -/
def childrenText (children : List Child) : List Char :=
  children.flatMap fun c => c.space ++ c.text

/-- The text is one element: an empty one, or one with its start tag, what is
    inside, and its end tag. -/
inductive Spells : Element → List Char → Prop where
  | empty {name : String} {attributes : Attributes} {head : List Char}
      (hh : SpellsHead name attributes head) :
      Spells (.empty name attributes) (head ++ ['/', '>'])
  | text {name content : String} {head raw close : List Char}
      (hh : SpellsHead name [] head) (hr : Denotes textMarks raw content.toList)
      (hc : SpellsEnd name close) :
      Spells (.text name content) (head ++ '>' :: raw ++ close)
  | node {name : String} {attributes : Attributes} {children : List Child}
      {head space close : List Char} (hh : SpellsHead name attributes head)
      (hne : children ≠ []) (hs : ∀ c ∈ children, Spaces c.space)
      (h : ∀ c ∈ children, Spells c.element c.text) (hw : Spaces space)
      (hc : SpellsEnd name close) :
      Spells (.node name attributes (children.map (·.element)))
        (head ++ '>' :: (childrenText children ++ space) ++ close)

/-- What the declaration of a document says. -/
def declared : Attributes := [("version", "1.0"), ("encoding", "UTF-8")]

/-- The text is a document: the declaration, then one element, with nothing
    but white space around it. -/
inductive IsDocument (root : Element) : List Char → Prop where
  | intro {declaration closing before body after : List Char}
      (hd : SpellsAttributes declared declaration) (hc : Spaces closing)
      (hb : Spaces before) (h : Spells root body) (ha : Spaces after) :
      IsDocument root
        ("<?xml".toList ++ declaration ++ closing ++ ['?', '>']
          ++ before ++ body ++ after)

/-- The text is a well-formed document. -/
structure WellFormed (text : List Char) : Prop where
  shape : ∃ root, IsDocument root text
  chars : ∀ c ∈ text, isXmlChar c = true

end RiskExchange.Markup
