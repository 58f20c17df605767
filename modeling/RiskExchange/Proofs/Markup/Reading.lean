import Mathlib.Data.List.Basic
import RiskExchange.Proofs.Markup.Grammar

/-! # Reading — a document is read back as its element

    A reader in two passes: a machine that takes one character at a time cuts a
    text into pieces and undoes the entities, and a stack of open elements
    makes an element of the pieces. White space between tags is passed over,
    and a tag that does not close what is open is refused. Whatever the grammar
    says is a document of an element is read as that element
    (`readDocument_of_isDocument`), so no text is a document of two. -/

namespace RiskExchange.Markup

/-! ## Entities undone -/

/-- The character of an entity. -/
def entity? (name : List Char) : Option Char :=
  (entities.find? fun e => e.1.toList == name).map (·.2)

/-- Undoes entities; inside one there are the characters of its name read so
    far. -/
def unescapeFrom : Option (List Char) → List Char → Option (List Char)
  | none, [] => some []
  | some _, [] => none
  | none, c :: rest =>
    if c = '&' then unescapeFrom (some []) rest
    else (unescapeFrom none rest).map (c :: ·)
  | some name, c :: rest =>
    if c = ';' then do return (← entity? name) :: (← unescapeFrom none rest)
    else unescapeFrom (some (name ++ [c])) rest

/-- The text that stands behind what is written. -/
def unescape (raw : List Char) : Option String :=
  (unescapeFrom none raw).map String.ofList

private theorem unescapeFrom_entity {e : String × Char} (he : e ∈ entities)
    (rest : List Char) :
    unescapeFrom none ('&' :: e.1.toList ++ ';' :: rest)
      = (unescapeFrom none rest).map (e.2 :: ·) := by
  have hbind (c : Char) (o : Option (List Char)) :
      (do return c :: (← o)) = o.map (c :: ·) := by
    cases o <;> rfl
  simp only [entities, List.mem_cons, List.not_mem_nil, or_false] at he
  rcases he with rfl | rfl | rfl | rfl | rfl <;> exact hbind _ _

/-- What denotes a text is read as the text. -/
theorem unescape_of_denotes {marks raw s : List Char} (hm : '&' ∈ marks)
    (h : Denotes marks raw s) : unescape raw = some (String.ofList s) := by
  have hfrom : unescapeFrom none raw = some s := by
    induction h with
    | nil => rfl
    | @plain c raw s hc h ih =>
        have hne : c ≠ '&' := by
          rintro rfl
          exact hc hm
        rw [unescapeFrom, if_neg hne, ih]
        rfl
    | entity he h ih =>
        rw [unescapeFrom_entity he, ih]
        rfl
  rw [unescape, hfrom]
  rfl

/-- What denotes a text consists of the text's characters and of entities. -/
theorem mem_of_denotes {marks raw s : List Char} {c : Char}
    (h : Denotes marks raw s) (hc : c ∈ raw) : (c ∉ marks ∧ c ∈ s) ∨
      ∃ e ∈ entities, c ∈ '&' :: e.1.toList ++ [';'] := by
  induction h with
  | nil => exact nomatch hc
  | plain hd h ih =>
      rcases List.mem_cons.mp hc with rfl | hc
      · exact .inl ⟨hd, List.mem_cons_self ..⟩
      · rcases ih hc with ⟨hmarks, hs⟩ | hentity
        · exact .inl ⟨hmarks, List.mem_cons_of_mem _ hs⟩
        · exact .inr hentity
  | @entity e raw s he h ih =>
      have hsplit : c ∈ '&' :: e.1.toList ++ [';'] ∨ c ∈ raw := by
        rw [← List.mem_append, List.append_assoc]
        exact hc
      rcases hsplit with hc | hc
      · exact .inr ⟨e, he, hc⟩
      · rcases ih hc with ⟨hmarks, hs⟩ | hentity
        · exact .inl ⟨hmarks, List.mem_cons_of_mem _ hs⟩
        · exact .inr hentity

/-- The characters that entities are written with. -/
theorem ne_of_mem_entity {c : Char} {e : String × Char} (he : e ∈ entities)
    (hc : c ∈ '&' :: e.1.toList ++ [';']) :
    c ≠ '<' ∧ c ≠ '"' ∧ c ≠ '\'' ∧ c ≠ '?' := by
  have hall : ∀ e ∈ entities, ('&' :: e.1.toList ++ [';']).all
      fun c => c ≠ '<' ∧ c ≠ '"' ∧ c ≠ '\'' ∧ c ≠ '?' := by
    decide
  exact of_decide_eq_true (List.all_eq_true.mp (hall e he) c hc)

/-- A left angle bracket is always written as an entity. -/
theorem less_not_mem {marks raw s : List Char} (hm : '<' ∈ marks)
    (h : Denotes marks raw s) : '<' ∉ raw := by
  intro hmem
  rcases mem_of_denotes h hmem with ⟨hmarks, -⟩ | ⟨e, he, hmem⟩
  · exact hmarks hm
  · exact (ne_of_mem_entity he hmem).1 rfl

/-! ## The machine -/

/-- Where in a document the machine is. -/
inductive Mode where
  /-- Between tags, behind some characters of a text. -/
  | text (done : List Char)
  /-- Behind a left angle bracket. -/
  | tag
  | startName (done : List Char)
  /-- Behind the name of a tag and some attributes. -/
  | inside (name : List Char) (attributes : Attributes)
  | keyName (name : List Char) (attributes : Attributes) (done : List Char)
  | equals (name : List Char) (attributes : Attributes) (key : List Char)
  | beforeValue (name : List Char) (attributes : Attributes)
      (key : List Char)
  | quoted (name : List Char) (attributes : Attributes) (key : List Char)
      (quote : Char) (done : List Char)
  /-- Behind the slash of an empty element. -/
  | slash (name : List Char) (attributes : Attributes)
  | endName (done : List Char)
  /-- Behind the name in an end tag. -/
  | ending (name : List Char)
  /-- In the declaration, which ends where a question mark is followed by a
      right angle bracket. -/
  | declaration (mark : Bool)

namespace Mode

/-- The pieces that a character completes, and the mode after it. -/
abbrev Step := Option (List Piece × Mode)

/-- A character behind the name of a tag. -/
def stepInside (name : List Char) (attributes : Attributes) (c : Char) : Step :=
  if isXmlSpace c then some ([], .inside name attributes)
  else if c = '/' then some ([], .slash name attributes)
  else if c = '>' then
    some ([.opening (String.ofList name) attributes], .text [])
  else if isNameStart c then some ([], .keyName name attributes [c])
  else none

/-- A character between the name of an attribute and the equals sign. -/
def stepEquals (name : List Char) (attributes : Attributes) (key : List Char)
    (c : Char) : Step :=
  if isXmlSpace c then some ([], .equals name attributes key)
  else if c = '=' then some ([], .beforeValue name attributes key)
  else none

/-- A character behind the name in an end tag. -/
def stepEnding (name : List Char) (c : Char) : Step :=
  if isXmlSpace c then some ([], .ending name)
  else if c = '>' then some ([.closing (String.ofList name)], .text [])
  else none

/-- The next character. -/
def step : Mode → Char → Step
  | .text done, c =>
    if c = '<' then (unescape done).map fun s => ([.text s], .tag)
    else some ([], .text (done ++ [c]))
  | .tag, c =>
    if c = '/' then some ([], .endName [])
    else if c = '?' then some ([], .declaration false)
    else if isNameStart c then some ([], .startName [c])
    else none
  | .startName done, c =>
    if isNameChar c then some ([], .startName (done ++ [c]))
    else stepInside done [] c
  | .inside name attributes, c => stepInside name attributes c
  | .keyName name attributes done, c =>
    if isNameChar c then some ([], .keyName name attributes (done ++ [c]))
    else stepEquals name attributes done c
  | .equals name attributes key, c => stepEquals name attributes key c
  | .beforeValue name attributes key, c =>
    if isXmlSpace c then some ([], .beforeValue name attributes key)
    else if c = '"' ∨ c = '\'' then some ([], .quoted name attributes key c [])
    else none
  | .quoted name attributes key quote done, c =>
    if c = quote then
      (unescape done).map fun v =>
        ([], .inside name (attributes ++ [(String.ofList key, v)]))
    else if c = '<' then none
    else some ([], .quoted name attributes key quote (done ++ [c]))
  | .slash name attributes, c =>
    if c = '>' then some ([.single (String.ofList name) attributes], .text [])
    else none
  | .endName done, c =>
    if isNameChar c then some ([], .endName (done ++ [c]))
    else stepEnding done c
  | .ending name, c => stepEnding name c
  | .declaration mark, c =>
    if mark ∧ c = '>' then some ([.declaration], .text [])
    else some ([], .declaration (c = '?'))

end Mode

/-- The pieces of a text from a mode on. -/
def lexFrom : Mode → List Char → Option (List Piece)
  | .text done, [] => (unescape done).map fun s => [.text s]
  | _, [] => none
  | mode, c :: rest => do
    let (pieces, next) ← mode.step c
    return pieces ++ (← lexFrom next rest)

/-! ## The stack of open elements -/

/-- An element whose end tag is still to come: what is inside so far, and the
    text behind that. -/
structure Open where
  name : String
  attributes : Attributes
  children : List Element
  text : String

namespace Open

/-- One more element inside. -/
def add (e : Element) (o : Open) : Open :=
  { o with children := o.children ++ [e], text := "" }

/-- There is nothing but white space since the last tag. -/
def isBlank (o : Open) : Bool := o.text.toList.all isXmlSpace

/-- The element at its end tag: elements are inside, or a text. -/
def element? (o : Open) : Option Element :=
  if o.children ≠ [] then
    if o.isBlank then some (.node o.name o.attributes o.children) else none
  else if o.attributes = [] then some (.text o.name o.text)
  else none

end Open

/-- The open elements after a piece, innermost first. -/
def place : List Open → Piece → Option (List Open)
  | o :: outer, .text s => some ({ o with text := s } :: outer)
  | o :: outer, .opening name attributes =>
    if o.isBlank then some (⟨name, attributes, [], ""⟩ :: o :: outer) else none
  | o :: outer, .single name attributes =>
    if o.isBlank then some (o.add (.empty name attributes) :: outer) else none
  | o :: next :: outer, .closing name =>
    if o.name = name then o.element?.map fun e => next.add e :: outer else none
  | _, _ => none

/-- The one element that pieces make inside the outermost open one. -/
def build : List Open → List Piece → Option Element
  | [o], [] => if o.isBlank then o.children.head? else none
  | _, [] => none
  | stack, p :: rest => do build (← place stack p) rest

/-- What stands for the document around its element. -/
def Open.document : Open := ⟨"", [], [], ""⟩

/-- Reads a document. -/
def readDocument (text : List Char) : Option Element := do
  match ← lexFrom (.text []) text with
  | .text "" :: .declaration :: rest => build [.document] rest
  | _ => none

/-! ## Texts that take the machine from one mode to another -/

/-- The text takes the machine from one mode to another, and completes
    pieces on the way. -/
def Lexes (mode : Mode) (s : List Char) (pieces : List Piece) (next : Mode) :
    Prop :=
  ∀ rest, lexFrom mode (s ++ rest) = (lexFrom next rest).map (pieces ++ ·)

namespace Lexes

variable {mode next last : Mode} {s t : List Char} {ps qs : List Piece}

theorem refl (mode : Mode) : Lexes mode [] [] mode := by
  intro rest
  change lexFrom mode rest = (lexFrom mode rest).map id
  rw [Option.map_id]
  rfl

theorem trans (h : Lexes mode s ps next) (h' : Lexes next t qs last) :
    Lexes mode (s ++ t) (ps ++ qs) last := by
  intro rest
  rw [List.append_assoc, h, h', Option.map_map]
  congr 1
  funext more
  exact (List.append_assoc ps qs more).symm

theorem single {c : Char} (h : mode.step c = some (ps, next)) :
    Lexes mode [c] ps next := by
  intro rest
  have hcons : lexFrom mode (c :: rest) = (do
      let (pieces, next) ← mode.step c
      return pieces ++ (← lexFrom next rest)) := by
    cases mode <;> rfl
  rw [List.singleton_append, hcons, h]
  change (do return ps ++ (← lexFrom next rest)) = _
  cases lexFrom next rest <;> rfl

theorem cons {c : Char} (h : mode.step c = some (ps, next))
    (h' : Lexes next t qs last) : Lexes mode (c :: t) (ps ++ qs) last :=
  (single h).trans h'

/-- Characters that are collected one by one. -/
theorem collect (make : List Char → Mode)
    (h : ∀ done, ∀ c ∈ s, (make done).step c = some ([], make (done ++ [c])))
    (done : List Char) : Lexes (make done) s [] (make (done ++ s)) := by
  induction s generalizing done with
  | nil =>
      rw [List.append_nil]
      exact refl _
  | cons c rest ih =>
      have hc := h done c (List.mem_cons_self ..)
      have hrest := ih (fun done d hd => h done d (List.mem_cons_of_mem _ hd))
        (done ++ [c])
      rw [List.append_assoc] at hrest
      exact cons hc hrest

/-- Characters that change nothing. -/
theorem stay (h : ∀ c ∈ s, mode.step c = some ([], mode)) :
    Lexes mode s [] mode :=
  collect (fun _ => mode) (fun _ c hc => h c hc) []

/-- A mode in which the next character is taken as it is in another one. -/
theorem of_step {c : Char} (hc : mode.step c = next.step c)
    (h : Lexes next (c :: t) ps last) : Lexes mode (c :: t) ps last := by
  intro rest
  rw [← h rest]
  have hcons (mode : Mode) : lexFrom mode (c :: (t ++ rest)) = (do
      let (pieces, next) ← mode.step c
      return pieces ++ (← lexFrom next (t ++ rest))) := by
    cases mode <;> rfl
  rw [List.cons_append, hcons, hcons, hc]

end Lexes

/-! ## Names -/

/-- The text begins with a character that ends a name. -/
def EndsName (s : List Char) : Prop :=
  ∃ c t, s = c :: t ∧ isNameChar c = false

private theorem isNameChar_of_isXmlSpace {c : Char} (h : isXmlSpace c = true) :
    isNameChar c = false := by
  simp only [isXmlSpace, Bool.or_eq_true, beq_iff_eq] at h
  rcases h with ((rfl | rfl) | rfl) | rfl <;> rfl

variable {w s t name : List Char} {attributes : Attributes} {c : Char}

theorem EndsName.spaces (hw : Spaces w) (h : EndsName s) :
    EndsName (w ++ s) := by
  cases w with
  | nil => exact h
  | cons c rest =>
      have hc := isNameChar_of_isXmlSpace (hw c (List.mem_cons_self ..))
      exact ⟨c, rest ++ s, rfl, hc⟩

/-- A character of a name is none of the marks in a tag. -/
private theorem ne_of_isNameStart {m : Char} (h : isNameStart c = true)
    (hm : isNameStart m = false) : c ≠ m := by
  rintro rfl
  rw [h] at hm
  exact nomatch hm

private theorem isXmlSpace_of_isNameStart (h : isNameStart c = true) :
    isXmlSpace c = false := by
  cases hs : isXmlSpace c with
  | false => rfl
  | true =>
      have hno := isNameChar_of_isXmlSpace hs
      rw [isNameChar, h] at hno
      exact nomatch hno

/-- A name that has been read is followed by something else. -/
theorem Lexes.tagName {ps : List Piece} {last : Mode} (hn : IsName name)
    (ht : EndsName t) (h : Lexes (.inside name []) t ps last) :
    Lexes .tag (name ++ t) ps last := by
  cases name with
  | nil => exact hn.elim
  | cons c rest =>
      obtain ⟨hc, hrest⟩ := hn
      have hfirst : Mode.step .tag c = some ([], .startName [c]) := by
        have hslash := ne_of_isNameStart hc (m := '/') rfl
        have hmark := ne_of_isNameStart hc (m := '?') rfl
        simp [Mode.step, hslash, hmark, hc]
      have hmore : Lexes (.startName [c]) rest [] (.startName (c :: rest)) :=
        collect .startName (fun done d hd => by simp [Mode.step, hrest d hd]) [c]
      obtain ⟨d, u, rfl, hd⟩ := ht
      have hend : Mode.step (.startName (c :: rest)) d
          = Mode.step (.inside (c :: rest) []) d := by
        simp [Mode.step, hd]
      exact cons hfirst (hmore.trans (of_step hend h))

/-- The same for the name of an attribute. -/
private theorem lexes_key {key : List Char} (hn : IsName key)
    (ht : EndsName t) {ps : List Piece} {last : Mode}
    (h : Lexes (.equals name attributes key) t ps last) :
    Lexes (.inside name attributes) (key ++ t) ps last := by
  cases key with
  | nil => exact hn.elim
  | cons c rest =>
      obtain ⟨hc, hrest⟩ := hn
      have hfirst : Mode.step (.inside name attributes) c
          = some ([], .keyName name attributes [c]) := by
        have hslash := ne_of_isNameStart hc (m := '/') rfl
        have hmore := ne_of_isNameStart hc (m := '>') rfl
        have hspace := isXmlSpace_of_isNameStart hc
        simp [Mode.step, Mode.stepInside, hslash, hmore, hspace, hc]
      have hmore : Lexes (.keyName name attributes [c]) rest []
          (.keyName name attributes (c :: rest)) :=
        .collect (.keyName name attributes)
          (fun done d hd => by simp [Mode.step, hrest d hd]) [c]
      obtain ⟨d, u, rfl, hd⟩ := ht
      have hend : Mode.step (.keyName name attributes (c :: rest)) d
          = Mode.step (.equals name attributes (c :: rest)) d := by
        simp [Mode.step, hd]
      exact .cons hfirst (hmore.trans (.of_step hend h))

/-! ## Tags -/

private theorem lexes_value {quote : Char} {key raw v : List Char}
    (hq : quote = '"' ∨ quote = '\'')
    (hv : Denotes (valueMarks quote) raw v) :
    Lexes (.quoted name attributes key quote []) (raw ++ [quote]) []
      (.inside name
        (attributes ++ [(String.ofList key, String.ofList v)])) := by
  have hless : '<' ∉ raw := less_not_mem (by simp [valueMarks]) hv
  have hquote : quote ∉ raw := by
    intro hmem
    rcases mem_of_denotes hv hmem with ⟨hmarks, -⟩ | ⟨e, he, hmem⟩
    · exact hmarks (by simp [valueMarks])
    · obtain ⟨-, hdouble, hsingle, -⟩ := ne_of_mem_entity he hmem
      rcases hq with rfl | rfl
      · exact hdouble rfl
      · exact hsingle rfl
  have hvalue := unescape_of_denotes (by simp [valueMarks]) hv
  have hraw : Lexes (.quoted name attributes key quote []) raw []
      (.quoted name attributes key quote raw) := by
    refine .collect (.quoted name attributes key quote) ?_ []
    intro done d hd
    have h1 : d ≠ quote := by
      rintro rfl
      exact hquote hd
    have h2 : d ≠ '<' := by
      rintro rfl
      exact hless hd
    simp [Mode.step, h1, h2]
  refine hraw.trans (.single ?_)
  simp [Mode.step, hvalue]

theorem lexes_attributes {body : List Char}
    (h : SpellsAttributes attributes body) (name : List Char)
    (done : Attributes) :
    Lexes (.inside name done) body [] (.inside name (done ++ attributes)) := by
  induction h generalizing done with
  | nil =>
      rw [List.append_nil]
      exact .refl _
  | @cons key value rest quote before left right raw more hne hb hn hl hr hq
      hv h ih =>
      have hbefore : Lexes (.inside name done) before [] (.inside name done) :=
        .stay fun d hd => by simp [Mode.step, Mode.stepInside, hb d hd]
      have hleft : Lexes (.equals name done key.toList) left []
          (.equals name done key.toList) :=
        .stay fun d hd => by simp [Mode.step, Mode.stepEquals, hl d hd]
      have hequals : Lexes (.equals name done key.toList) ['='] []
          (.beforeValue name done key.toList) := .single rfl
      have hright : Lexes (.beforeValue name done key.toList) right []
          (.beforeValue name done key.toList) :=
        .stay fun d hd => by simp [Mode.step, hr d hd]
      have hquote : Lexes (.beforeValue name done key.toList) [quote] []
          (.quoted name done key.toList quote []) := by
        refine .single ?_
        rcases hq with rfl | rfl <;> rfl
      have hvalue : Lexes (.quoted name done key.toList quote [])
          (raw ++ [quote]) [] (.inside name (done ++ [(key, value)])) := by
        have h : Lexes (.quoted name done key.toList quote []) _ _ _ :=
          lexes_value hq hv
        rwa [String.ofList_toList, String.ofList_toList] at h
      have hmore := ih (done ++ [(key, value)])
      rw [List.append_assoc] at hmore
      have hends : EndsName (left ++ (['='] ++ (right ++ ([quote]
          ++ ((raw ++ [quote]) ++ more))))) :=
        .spaces hl ⟨'=', _, rfl, rfl⟩
      have hkey := lexes_key hn hends (hleft.trans (hequals.trans
        (hright.trans (hquote.trans (hvalue.trans hmore)))))
      have hall := hbefore.trans hkey
      simpa using hall

private theorem endsName_attributes {body : List Char}
    (h : SpellsAttributes attributes body) (ht : EndsName t) :
    EndsName (body ++ t) := by
  cases h with
  | nil => exact ht
  | @cons key value rest quote before left right raw more hne hb hn hl hr hq
      hv h =>
      cases before with
      | nil => exact absurd rfl hne
      | cons c u =>
          have hc := isNameChar_of_isXmlSpace (hb c (List.mem_cons_self ..))
          exact ⟨c, _, rfl, hc⟩

/-- A text that consists of white space is kept as it is. -/
private theorem unescape_spaces (hw : Spaces w) :
    unescape w = some (String.ofList w) := by
  have hm : '&' ∈ ['&'] := List.mem_singleton.mpr rfl
  refine unescape_of_denotes hm ?_
  induction w with
  | nil => exact .nil
  | cons c rest ih =>
      obtain ⟨hc, hrest⟩ := List.forall_mem_cons.mp hw
      refine .plain ?_ (ih hrest)
      intro hmem
      rw [List.mem_singleton.mp hmem] at hc
      exact nomatch hc

/-- A text up to the next tag. -/
theorem lexes_text {raw : List Char} {v : String} (hless : '<' ∉ raw)
    (hv : unescape raw = some v) :
    Lexes (.text []) (raw ++ ['<']) [.text v] .tag := by
  have hraw : Lexes (.text []) raw [] (.text raw) := by
    refine .collect .text ?_ []
    intro done d hd
    have hne : d ≠ '<' := by
      rintro rfl
      exact hless hd
    simp [Mode.step, hne]
  refine hraw.trans (.single ?_)
  simp [Mode.step, hv]

private theorem lexes_spaces (hw : Spaces w) :
    Lexes (.text []) (w ++ ['<']) [.text (String.ofList w)] .tag := by
  refine lexes_text ?_ (unescape_spaces hw)
  intro hmem
  exact nomatch hw '<' hmem

/-- A start tag or an empty element, behind white space. -/
theorem lexes_head {name : String} {head close : List Char} {p : Piece}
    (hw : Spaces w) (hh : SpellsHead name attributes head)
    (hclose : EndsName close)
    (h : Lexes (.inside name.toList attributes) close [p] (.text [])) :
    Lexes (.text []) (w ++ head ++ close) [.text (String.ofList w), p]
      (.text []) := by
  obtain ⟨hn, hb, -, ha⟩ := hh
  rename_i body after
  have hafter : Lexes (.inside name.toList attributes) after []
      (.inside name.toList attributes) :=
    .stay fun d hd => by simp [Mode.step, Mode.stepInside, ha d hd]
  have hbody := lexes_attributes hb name.toList []
  have hends : EndsName (body ++ (after ++ close)) :=
    endsName_attributes hb (.spaces ha hclose)
  have htag := Lexes.tagName hn hends (hbody.trans (hafter.trans h))
  have hall := (lexes_spaces hw).trans htag
  simpa using hall

/-- How a start tag closes. -/
theorem lexes_open (name : String) (attributes : Attributes) :
    Lexes (.inside name.toList attributes) ['>'] [.opening name attributes]
      (.text []) := by
  refine .single ?_
  simp [Mode.step, Mode.stepInside, isXmlSpace]

/-- How an empty element closes. -/
theorem lexes_slash (name : String) (attributes : Attributes) :
    Lexes (.inside name.toList attributes) ['/', '>']
      [.single name attributes] (.text []) := by
  have hstep : Mode.step (.inside name.toList attributes) '/'
      = some ([], .slash name.toList attributes) := rfl
  refine .cons hstep (.single ?_)
  simp [Mode.step]

/-- An end tag, behind a text. -/
theorem lexes_end {name : String} {raw close : List Char} {v : String}
    (hless : '<' ∉ raw) (hv : unescape raw = some v) (hn : IsName name.toList)
    (hc : SpellsEnd name close) :
    Lexes (.text []) (raw ++ close) [.text v, .closing name] (.text []) := by
  obtain ⟨ha⟩ := hc
  rename_i after
  have hslash : Lexes .tag ['/'] [] (.endName []) := .single rfl
  have hname : Lexes (.endName []) name.toList [] (.endName name.toList) := by
    refine .collect .endName ?_ []
    intro done d hd
    have hchar : isNameChar d = true := by
      revert hn hd
      cases name.toList with
      | nil =>
          intro hn
          exact hn.elim
      | cons c rest =>
          rintro ⟨hc, hrest⟩ hd
          rcases List.mem_cons.mp hd with rfl | hd
          · rw [isNameChar, hc, Bool.true_or]
          · exact hrest d hd
    simp [Mode.step, hchar]
  have hafter : Lexes (.ending name.toList) after [] (.ending name.toList) :=
    .stay fun d hd => by simp [Mode.step, Mode.stepEnding, ha d hd]
  have hclose : Lexes (.ending name.toList) ['>'] [.closing name]
      (.text []) := by
    refine .single ?_
    simp [Mode.step, Mode.stepEnding, isXmlSpace]
  have hlast : Lexes (.endName name.toList) (after ++ ['>']) [.closing name]
      (.text []) := by
    obtain ⟨d, u, heq, hd⟩ : EndsName (after ++ ['>']) :=
      .spaces ha ⟨'>', [], rfl, rfl⟩
    have hrun := hafter.trans hclose
    rw [heq] at hrun ⊢
    refine .of_step ?_ hrun
    simp [Mode.step, hd]
  have hall := (lexes_text hless hv).trans
    (hslash.trans (hname.trans hlast))
  simpa using hall

/-! ## Elements -/

/-- The text is read as an element, behind white space and inside whatever is
    open. -/
def ReadsAs (s : List Char) (e : Element) : Prop :=
  ∀ w, Spaces w → ∃ pieces, Lexes (.text []) (w ++ s) pieces (.text []) ∧
    ∀ o outer more,
      build (o :: outer) (pieces ++ more) = build (o.add e :: outer) more

private theorem isBlank_of_spaces (hw : Spaces w) {o : Open}
    (h : o.text = String.ofList w) : o.isBlank = true := by
  rw [Open.isBlank, h, String.toList_ofList]
  exact List.all_eq_true.mpr hw

theorem build_cons {stack next : List Open} {p : Piece}
    (h : place stack p = some next) (rest : List Piece) :
    build stack (p :: rest) = build next rest := by
  have hcons : build stack (p :: rest)
      = (place stack p).bind fun next => build next rest := by
    cases stack with
    | nil => rfl
    | cons o outer => cases outer <;> rfl
  rw [hcons, h]
  rfl

/-- An element is opened behind white space. -/
private theorem build_opening (hw : Spaces w) (o : Open) (outer : List Open)
    (name : String) (attributes : Attributes) (rest : List Piece) :
    build (o :: outer)
        (.text (String.ofList w) :: .opening name attributes :: rest)
      = build (⟨name, attributes, [], ""⟩
          :: { o with text := String.ofList w } :: outer) rest := by
  have hblank := isBlank_of_spaces hw
    (o := { o with text := String.ofList w }) rfl
  rw [build_cons (p := .text (String.ofList w)) rfl]
  refine build_cons ?_ rest
  exact if_pos hblank

/-- Several elements that follow each other. -/
private theorem readsAs_all {children : List Child}
    (hs : ∀ c ∈ children, Spaces c.space)
    (h : ∀ c ∈ children, ReadsAs c.text c.element) :
    ∃ pieces, Lexes (.text []) (childrenText children) pieces (.text []) ∧
      ∀ o outer more, build (o :: outer) (pieces ++ more)
        = build (children.foldl (fun o c => o.add c.element) o :: outer)
            more := by
  induction children with
  | nil => exact ⟨[], .refl _, fun _ _ _ => rfl⟩
  | cons c rest ih =>
      obtain ⟨hc, hrest⟩ := List.forall_mem_cons.mp h
      obtain ⟨hspace, hspaces⟩ := List.forall_mem_cons.mp hs
      obtain ⟨ps, hps, hbuild⟩ := hc c.space hspace
      obtain ⟨qs, hqs, hbuilds⟩ := ih hspaces hrest
      refine ⟨ps ++ qs, hps.trans hqs, ?_⟩
      intro o outer more
      rw [List.append_assoc, hbuild, hbuilds, List.foldl_cons]

private theorem foldl_add (children : List Child) (o : Open) :
    (children.foldl (fun o c => o.add c.element) o).name = o.name ∧
    (children.foldl (fun o c => o.add c.element) o).attributes
      = o.attributes ∧
    (children.foldl (fun o c => o.add c.element) o).children
      = o.children ++ children.map (·.element) := by
  induction children generalizing o with
  | nil => exact ⟨rfl, rfl, (List.append_nil _).symm⟩
  | cons c rest ih =>
      obtain ⟨hname, hattributes, hchildren⟩ := ih (o.add c.element)
      refine ⟨hname, hattributes, hchildren.trans ?_⟩
      exact List.append_assoc o.children [c.element] _

/-- Whatever is an element by the grammar is read as that element. -/
theorem readsAs_of_spells {e : Element} (h : Spells e s) : ReadsAs s e := by
  -- on the element; the white space in front of it is cut off as a text, and
  -- building passes over that
  induction h with
  | @empty name attributes head hh =>
      intro w hw
      have hhead := lexes_head hw hh ⟨'/', _, rfl, rfl⟩
        (lexes_slash name attributes)
      refine ⟨_, by rwa [List.append_assoc] at hhead, ?_⟩
      intro o outer more
      have hblank := isBlank_of_spaces hw
        (o := { o with text := String.ofList w }) rfl
      change build (o :: outer)
        (.text (String.ofList w) :: .single name attributes :: more) = _
      rw [build_cons (p := .text (String.ofList w)) rfl]
      refine build_cons ?_ more
      exact if_pos hblank
  | @text name content head raw close hh hr hc =>
      intro w hw
      obtain ⟨hn, -⟩ := id hh
      have hless : '<' ∉ raw := less_not_mem (by decide) hr
      have hv := unescape_of_denotes (by decide) hr
      rw [String.ofList_toList] at hv
      have hhead := lexes_head hw hh ⟨'>', _, rfl, rfl⟩ (lexes_open name [])
      have hall := hhead.trans (lexes_end hless hv hn hc)
      refine ⟨_, by simpa using hall, ?_⟩
      intro o outer more
      refine (build_opening hw o outer name [] _).trans ?_
      change build _ (.text content :: .closing name :: more) = _
      rw [build_cons (p := .text content) rfl]
      refine build_cons ?_ more
      simp [place, Open.element?, Open.add]
  | @node name attributes children head space close hh hne hs h hw' hc ih =>
      intro w hw
      obtain ⟨hn, -⟩ := id hh
      obtain ⟨ps, hps, hbuild⟩ := readsAs_all hs ih
      have hless : '<' ∉ space := by
        intro hmem
        exact nomatch hw' '<' hmem
      have hhead := lexes_head hw hh ⟨'>', _, rfl, rfl⟩
        (lexes_open name attributes)
      have hend := lexes_end hless (unescape_spaces hw') hn hc
      have hall := hhead.trans (hps.trans hend)
      refine ⟨_, by simpa using hall, ?_⟩
      intro o outer more
      refine (build_opening hw o outer name attributes _).trans ?_
      change build _ ((ps ++ [.text (String.ofList space), .closing name])
        ++ more) = _
      rw [List.append_assoc, hbuild]
      obtain ⟨hname, hattributes, hchildren⟩ :=
        foldl_add children ⟨name, attributes, [], ""⟩
      generalize children.foldl (fun (o : Open) c => o.add c.element)
        ⟨name, attributes, [], ""⟩ = last at hname hattributes hchildren ⊢
      change build _
        (.text (String.ofList space) :: .closing name :: more) = _
      rw [build_cons (p := .text (String.ofList space)) rfl]
      refine build_cons ?_ more
      simp [place, hname, Open.element?, hchildren, hne, hattributes,
        isBlank_of_spaces hw', Open.add]

/-! ## Documents -/

/-- Attributes without question marks are spelled without one. -/
private theorem mark_not_mem {body : List Char}
    (h : SpellsAttributes attributes body)
    (hno : ∀ a ∈ attributes, '?' ∉ a.1.toList ∧ '?' ∉ a.2.toList) :
    '?' ∉ body := by
  have hspaces {w : List Char} (hw : Spaces w) : '?' ∉ w := by
    intro hmem
    exact nomatch hw '?' hmem
  induction h with
  | nil => exact List.not_mem_nil
  | @cons key value rest quote before left right raw more hne hb hn hl hr hq
      hv h ih =>
      obtain ⟨⟨hkey, hvalue⟩, hrest⟩ := List.forall_mem_cons.mp hno
      have hraw : '?' ∉ raw := by
        intro hmem
        rcases mem_of_denotes hv hmem with ⟨-, hmem⟩ | ⟨e, he, hmem⟩
        · exact hvalue hmem
        · exact (ne_of_mem_entity he hmem).2.2.2 rfl
      have hquote : '?' ≠ quote := by
        rcases hq with rfl | rfl <;> decide
      simp [hspaces hb, hspaces hl, hspaces hr, hkey, hraw, hquote, ih hrest]

private theorem lexes_declaration {declaration closing : List Char}
    (hd : SpellsAttributes declared declaration) (hc : Spaces closing) :
    Lexes (.text [])
      ("<?xml".toList ++ declaration ++ closing ++ ['?', '>'])
      [.text "", .declaration] (.text []) := by
  have hno : '?' ∉ "xml".toList ++ declaration ++ closing := by
    have hdeclaration := mark_not_mem hd (by decide)
    have hclosing : '?' ∉ closing := by
      intro hmem
      exact nomatch hc '?' hmem
    simp [hdeclaration, hclosing]
  have hless : Lexes (.text []) ['<'] [.text ""] .tag := .single rfl
  have hmark : Lexes .tag ['?'] [] (.declaration false) := .single rfl
  have hinside : Lexes (.declaration false)
      ("xml".toList ++ declaration ++ closing) [] (.declaration false) := by
    refine .stay ?_
    intro c hc
    have hne : c ≠ '?' := by
      rintro rfl
      exact hno hc
    simp [Mode.step, hne]
  have hstep : Mode.step (.declaration false) '?'
      = some ([], .declaration true) := rfl
  have hend : Lexes (.declaration false) ['?', '>'] [.declaration]
      (.text []) := .cons hstep (.single rfl)
  have hall := hless.trans (hmark.trans (hinside.trans hend))
  simpa using hall

/-- A document is read as its element. -/
theorem readDocument_of_isDocument {root : Element}
    (h : IsDocument root s) : readDocument s = some root := by
  obtain ⟨hd, hc, hb, hroot, ha⟩ := h
  rename_i declaration closing before body after
  obtain ⟨pieces, hlex, hbuild⟩ := readsAs_of_spells hroot before hb
  have hafter : lexFrom (.text []) after
      = some [.text (String.ofList after)] := by
    have hstay : Lexes (.text []) after [] (.text after) := by
      refine .collect .text ?_ []
      intro done c hc
      have hne : c ≠ '<' := by
        rintro rfl
        exact nomatch ha '<' hc
      simp [Mode.step, hne]
    have hrun := hstay []
    rw [List.append_nil] at hrun
    rw [hrun, lexFrom, unescape_spaces ha]
    rfl
  have hall := ((lexes_declaration hd hc).trans hlex) after
  rw [hafter] at hall
  rw [readDocument, List.append_assoc _ before body, hall]
  change build [.document] (pieces ++ [.text (String.ofList after)]) = _
  rw [hbuild, build_cons (p := .text (String.ofList after)) rfl]
  exact if_pos (isBlank_of_spaces ha rfl)

end RiskExchange.Markup
