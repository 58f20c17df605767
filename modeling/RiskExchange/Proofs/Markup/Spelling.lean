import Mathlib.Data.List.Basic
import RiskExchange.Markup.Layout
import RiskExchange.Proofs.Markup.Grammar

/-! # Spelling — what is rendered of an element is a document

    Whatever stands in values and texts, a rendered element obeys the grammar,
    with any indent (`isDocument_render`). Escaping is what makes it so: an
    escaped text stands for itself and holds no mark (`denotes_escape`). The
    grammar does not ask which characters there are, and escaping does not
    change whether all of them are allowed (`wellFormed_render_iff`). -/

namespace RiskExchange.Markup

/-! ## Elements that can be spelled -/

/-- Attributes with names, none of them given twice. -/
def ProperAttributes (attributes : Attributes) : Prop :=
  (∀ a ∈ attributes, IsName a.1.toList) ∧ (attributes.map (·.1)).Nodup

instance (attributes : Attributes) : Decidable (ProperAttributes attributes) :=
  inferInstanceAs (Decidable (_ ∧ _))

/-- An element whose names are names, and in which every node has elements
    inside. -/
inductive Element.Proper : Element → Prop where
  | empty {name : String} {attributes : Attributes}
      (hn : IsName name.toList) (ha : ProperAttributes attributes) :
      Proper (.empty name attributes)
  | text {name : String} (hn : IsName name.toList) (content : String) :
      Proper (.text name content)
  | node {name : String} {attributes : Attributes} {children : List Element}
      (hn : IsName name.toList) (ha : ProperAttributes attributes)
      (hne : children ≠ []) (h : ∀ e ∈ children, Proper e) :
      Proper (.node name attributes children)

/-! ## Escaped texts -/

/-- The characters that are escaped. -/
def escapedMarks : List Char := entities.map (·.2)

/-- A character that is no mark is written as itself, and any other one as its
    entity. -/
theorem escapeChar_cases (c : Char) :
    (c ∉ escapedMarks ∧ escapeChar c = [c]) ∨
    ∃ e ∈ entities, c = e.2 ∧ escapeChar c = '&' :: e.1.toList ++ [';'] := by
  by_cases hc : c ∈ escapedMarks
  · right
    obtain ⟨e, he, rfl⟩ := List.mem_map.mp hc
    refine ⟨e, he, rfl, ?_⟩
    revert e
    decide
  · left
    refine ⟨hc, ?_⟩
    simp only [escapedMarks, entities, List.map_cons, List.map_nil,
      List.mem_cons, List.not_mem_nil, or_false, not_or] at hc
    obtain ⟨hlt, hgt, hamp, hapos, hquot⟩ := hc
    rw [escapeChar, if_neg hlt, if_neg hgt, if_neg hamp, if_neg hapos,
      if_neg hquot]

/-- An escaped text stands for the text, wherever the marks of a place are
    among those that are escaped. -/
theorem denotes_escape {marks : List Char} (hm : marks ⊆ escapedMarks)
    (s : String) : Denotes marks (escape s) s.toList := by
  rw [escape]
  induction s.toList with
  | nil => exact .nil
  | cons c rest ih =>
      rw [List.flatMap_cons]
      rcases escapeChar_cases c with ⟨hc, heq⟩ | ⟨e, he, rfl, heq⟩
      · rw [heq]
        exact .plain (fun hmem => hc (hm hmem)) ih
      · rw [heq, List.append_assoc]
        exact .entity he ih

theorem denotes_escape_text (s : String) :
    Denotes textMarks (escape s) s.toList :=
  denotes_escape (by decide) s

theorem denotes_escape_value (s : String) :
    Denotes (valueMarks '"') (escape s) s.toList :=
  denotes_escape (by decide) s

/-! ## Tags -/

variable {name : String} {attributes : Attributes}

theorem spaces_nil : Spaces [] := by
  intro c hc
  exact nomatch hc

theorem spaces_blank : Spaces [' '] := by
  intro c hc
  rw [List.mem_singleton.mp hc]
  rfl

private theorem spells_attributesText
    (h : ∀ a ∈ attributes, IsName a.1.toList) :
    SpellsAttributes attributes (attributesText attributes) := by
  induction attributes with
  | nil => exact .nil
  | cons a rest ih =>
      obtain ⟨name, value⟩ := a
      obtain ⟨hn, hrest⟩ := List.forall_mem_cons.mp h
      have hcons := SpellsAttributes.cons (List.cons_ne_nil ' ' [])
        spaces_blank hn spaces_nil spaces_nil (.inl rfl)
        (denotes_escape_value value) (ih hrest)
      simpa [attributesText] using hcons

/-- A tag that is written begins as a tag does. -/
theorem spells_head (hn : IsName name.toList)
    (ha : ProperAttributes attributes) :
    SpellsHead name attributes
      ('<' :: name.toList ++ attributesText attributes) := by
  have h := SpellsHead.intro hn (spells_attributesText ha.1) ha.2 spaces_nil
  rwa [List.append_nil] at h

theorem spells_end (name : String) :
    SpellsEnd name ('<' :: '/' :: name.toList ++ ['>']) := by
  have h : SpellsEnd name ('<' :: '/' :: name.toList ++ [] ++ ['>']) :=
    .intro spaces_nil
  rwa [List.append_nil] at h

/-! ## Layout -/

theorem spaces_breakBefore (indent : Nat) (cursor : Cursor) (p : Piece) :
    Spaces (breakBefore indent cursor p) := by
  have hbreak : Spaces (if indent ≠ 0 ∧ cursor.breakDue then
      '\n' :: List.replicate (indent * p.depth cursor) ' ' else []) := by
    split
    · intro c hc
      rcases List.mem_cons.mp hc with rfl | hc
      · rfl
      · rw [List.eq_of_mem_replicate hc]
        rfl
    · exact spaces_nil
  cases p with
  | text content => exact spaces_nil
  | declaration => exact hbreak
  | opening name attributes => exact hbreak
  | closing name => exact hbreak
  | single name attributes => exact hbreak

/-- What pieces are written as, with their line breaks. -/
def layout (indent : Nat) (cursor : Cursor) (pieces : List Piece) :
    List Char := (chunks indent cursor pieces).flatten

theorem layout_cons (indent : Nat) (cursor : Cursor) (p : Piece)
    (rest : List Piece) :
    layout indent cursor (p :: rest)
      = breakBefore indent cursor p ++ p.written
        ++ layout indent (cursor.after p) rest := rfl

theorem layout_append (indent : Nat) (cursor : Cursor) (as bs : List Piece) :
    layout indent cursor (as ++ bs)
      = layout indent cursor as
        ++ layout indent (as.foldl Cursor.after cursor) bs := by
  induction as generalizing cursor with
  | nil => rfl
  | cons p rest ih =>
      rw [List.cons_append, layout_cons, layout_cons, ih]
      exact (List.append_assoc _ _ _).symm

/-! ## Elements -/

/-- The element is spelled behind some white space, wherever it stands. -/
def WrittenOut (indent : Nat) (e : Element) : Prop :=
  ∀ cursor, ∃ space text, layout indent cursor e.pieces = space ++ text ∧
    Spaces space ∧ Spells e text

private theorem writtenOut_all {indent : Nat} {children : List Element}
    (h : ∀ e ∈ children, WrittenOut indent e) (cursor : Cursor) :
    ∃ cs : List Child, cs.map (·.element) = children ∧
      layout indent cursor (Element.piecesAll children) = childrenText cs ∧
      (∀ c ∈ cs, Spaces c.space) ∧ ∀ c ∈ cs, Spells c.element c.text := by
  induction children generalizing cursor with
  | nil =>
      refine ⟨[], rfl, rfl, ?_, ?_⟩
      · intro c hc
        exact nomatch hc
      · intro c hc
        exact nomatch hc
  | cons e rest ih =>
      obtain ⟨he, hrest⟩ := List.forall_mem_cons.mp h
      obtain ⟨space, text, heq, hs, ht⟩ := he cursor
      obtain ⟨cs, hmap, hcs, hspaces, hspells⟩ :=
        ih hrest (e.pieces.foldl Cursor.after cursor)
      refine ⟨⟨e, space, text⟩ :: cs, congrArg (e :: ·) hmap, ?_,
        List.forall_mem_cons.mpr ⟨hs, hspaces⟩,
        List.forall_mem_cons.mpr ⟨ht, hspells⟩⟩
      rw [Element.piecesAll, layout_append, heq, hcs]
      rfl

/-- A proper element is written out as an element. -/
theorem Element.Proper.writtenOut {e : Element} (h : e.Proper)
    (indent : Nat) : WrittenOut indent e := by
  induction h with
  | @empty name attributes hn ha =>
      intro cursor
      refine ⟨breakBefore indent cursor (.single name attributes), _, ?_,
        spaces_breakBefore indent cursor _, .empty (spells_head hn ha)⟩
      rw [pieces, layout_cons]
      exact List.append_nil _
  | @text name hn content =>
      intro cursor
      have hno : ProperAttributes [] := by decide
      refine ⟨breakBefore indent cursor (.opening name []), _, ?_,
        spaces_breakBefore indent cursor _,
        .text (spells_head hn hno) (denotes_escape_text content)
          (spells_end name)⟩
      -- no line is broken behind a text
      simp [pieces, layout, chunks, breakBefore, Cursor.after, Piece.written]
  | @node name attributes children hn ha hne h ih =>
      intro cursor
      let inside := cursor.after (.opening name attributes)
      obtain ⟨cs, rfl, heq, hspaces, hspells⟩ := writtenOut_all ih inside
      have hcs : cs ≠ [] := by
        rintro rfl
        exact hne rfl
      let last := (piecesAll (cs.map (·.element))).foldl Cursor.after inside
      refine ⟨breakBefore indent cursor (.opening name attributes), _, ?_,
        spaces_breakBefore indent cursor _,
        .node (spells_head hn ha) hcs hspaces hspells
          (spaces_breakBefore indent last (.closing name)) (spells_end name)⟩
      rw [pieces, List.cons_append, layout_cons, layout_append, heq,
        layout_cons]
      simp [Piece.written, layout, chunks, last, inside]

/-- The declaration says what it should. -/
private theorem spells_declaration : SpellsAttributes declared
    " version=\"1.0\" encoding=\"UTF-8\"".toList := by
  have hnames : ∀ a ∈ declared, IsName a.1.toList := by
    decide
  exact spells_attributesText hnames

/-- What is rendered of a proper element is a document. -/
theorem isDocument_render {e : Element} (h : e.Proper) (indent : Nat) :
    IsDocument e (render indent (.declaration :: e.pieces)).toList := by
  obtain ⟨space, text, heq, hs, ht⟩ :=
    h.writtenOut indent (Cursor.start.after .declaration)
  have hdoc := IsDocument.intro spells_declaration spaces_nil hs ht spaces_nil
  have hfirst : breakBefore indent .start .declaration = [] :=
    if_neg (by simp [Cursor.start])
  have htext : (render indent (.declaration :: e.pieces)).toList
      = declarationText.toList ++ (space ++ text) := by
    rw [← heq, render, String.toList_ofList]
    change layout indent .start (.declaration :: e.pieces) = _
    rw [layout_cons, hfirst]
    rfl
  rw [htext]
  simpa [declarationText] using hdoc

/-! ## Characters -/

/-- All characters of a text may stand in a document. -/
def Allowed (s : List Char) : Prop := ∀ c ∈ s, isXmlChar c = true

instance (s : List Char) : Decidable (Allowed s) :=
  decidable_of_iff (s.all isXmlChar) List.all_eq_true

variable {s t : List Char} {c : Char}

theorem allowed_append : Allowed (s ++ t) ↔ Allowed s ∧ Allowed t :=
  List.forall_mem_append

theorem allowed_cons : Allowed (c :: s) ↔ isXmlChar c = true ∧ Allowed s :=
  List.forall_mem_cons

theorem allowed_nil : Allowed [] := by
  intro c hc
  exact nomatch hc

private theorem isXmlChar_of_isNameChar (h : isNameChar c = true) :
    isXmlChar c = true := by
  simp [isNameChar, isNameStart, inRanges, nameStartRanges,
    nameMoreRanges] at h
  simp [isXmlChar]
  omega

private theorem allowed_of_isName (h : IsName s) : Allowed s := by
  cases s with
  | nil => exact allowed_nil
  | cons c rest =>
      obtain ⟨hc, hrest⟩ := h
      refine allowed_cons.mpr ⟨isXmlChar_of_isNameChar ?_, ?_⟩
      · rw [isNameChar, hc, Bool.true_or]
      · intro d hd
        exact isXmlChar_of_isNameChar (hrest d hd)

private theorem allowed_of_spaces (h : Spaces s) : Allowed s := by
  intro c hc
  have hspace := h c hc
  simp only [isXmlSpace, Bool.or_eq_true, beq_iff_eq] at hspace
  rcases hspace with ((rfl | rfl) | rfl) | rfl <;> rfl

/-- An entity is allowed, and so is the mark that it stands for. -/
private theorem allowed_entity {e : String × Char} (he : e ∈ entities) :
    isXmlChar e.2 = true ∧ Allowed ('&' :: e.1.toList ++ [';']) := by
  revert e
  decide

/-- Escaping neither brings in nor takes away what is not allowed. -/
theorem allowed_escape (s : String) :
    Allowed (escape s) ↔ Allowed s.toList := by
  rw [escape]
  induction s.toList with
  | nil => exact Iff.rfl
  | cons c rest ih =>
      rw [List.flatMap_cons, allowed_append, allowed_cons, ih]
      rcases escapeChar_cases c with ⟨-, heq⟩ | ⟨e, he, rfl, heq⟩
      · rw [heq, allowed_cons]
        simp [allowed_nil]
      · obtain ⟨hmark, hentity⟩ := allowed_entity he
        rw [heq]
        constructor
        · intro h
          exact ⟨hmark, h.2⟩
        · intro h
          exact ⟨hentity, h.2⟩

/-- The values and texts in a piece. -/
def Piece.strings : Piece → List String
  | .opening _ attributes | .single _ attributes => attributes.map (·.2)
  | .text content => [content]
  | .declaration | .closing _ => []

/-- The names in a piece are names. -/
def Piece.Named : Piece → Prop
  | .opening name attributes | .single name attributes =>
    IsName name.toList ∧ ∀ a ∈ attributes, IsName a.1.toList
  | .closing name => IsName name.toList
  | .declaration | .text _ => True

private theorem allowed_attributesText
    (h : ∀ a ∈ attributes, IsName a.1.toList) :
    Allowed (attributesText attributes)
      ↔ ∀ v ∈ attributes.map (·.2), Allowed v.toList := by
  induction attributes with
  | nil => simp [attributesText, allowed_nil]
  | cons a rest ih =>
      obtain ⟨name, value⟩ := a
      obtain ⟨hn, hrest⟩ := List.forall_mem_cons.mp h
      have hname : Allowed name.toList := allowed_of_isName hn
      have htext : attributesText ((name, value) :: rest)
          = ([' '] ++ name.toList ++ ['=', '"'] ++ escape value ++ ['"'])
            ++ attributesText rest := by
        simp [attributesText]
      have hmarks : Allowed [' '] ∧ Allowed ['=', '"'] ∧ Allowed ['"'] := by
        decide
      obtain ⟨hblank, hopen, hclose⟩ := hmarks
      rw [htext, allowed_append, ih hrest, List.map_cons,
        List.forall_mem_cons]
      simp only [allowed_append, allowed_escape, hname, hblank, hopen, hclose,
        true_and, and_true]

/-- A piece that is written is allowed if its values and texts are. -/
theorem allowed_written {p : Piece} (h : p.Named) :
    Allowed p.written ↔ ∀ v ∈ p.strings, Allowed v.toList := by
  have hless : isXmlChar '<' = true := rfl
  have hmore : Allowed ['>'] ∧ Allowed ['/', '>'] := by
    decide
  obtain ⟨hmore, hslash⟩ := hmore
  cases p with
  | declaration =>
      have hdeclaration : Allowed declarationText.toList := by
        decide
      simp [Piece.written, Piece.strings, hdeclaration]
  | opening name attributes =>
      simp only [Piece.written, Piece.strings, allowed_append, allowed_cons,
        allowed_of_isName h.1, allowed_attributesText h.2, hless, hmore,
        true_and, and_true]
  | single name attributes =>
      simp only [Piece.written, Piece.strings, allowed_append, allowed_cons,
        allowed_of_isName h.1, allowed_attributesText h.2, hless, hslash,
        true_and, and_true]
  | closing name =>
      have hname : Allowed name.toList := allowed_of_isName h
      have hstroke : isXmlChar '/' = true := rfl
      simp [Piece.written, Piece.strings, allowed_append, allowed_cons, hname,
        hless, hstroke, hmore]
  | text content =>
      simp [Piece.written, Piece.strings, allowed_escape]

private theorem allowed_layout {pieces : List Piece}
    (h : ∀ p ∈ pieces, p.Named) (indent : Nat) (cursor : Cursor) :
    Allowed (layout indent cursor pieces)
      ↔ ∀ v ∈ pieces.flatMap Piece.strings, Allowed v.toList := by
  induction pieces generalizing cursor with
  | nil => simp [layout, chunks, allowed_nil]
  | cons p rest ih =>
      obtain ⟨hp, hrest⟩ := List.forall_mem_cons.mp h
      have hbreak : Allowed (breakBefore indent cursor p) :=
        allowed_of_spaces (spaces_breakBefore indent cursor p)
      rw [layout_cons, allowed_append, allowed_append, allowed_written hp,
        ih hrest, List.flatMap_cons, List.forall_mem_append]
      simp only [hbreak, true_and]

namespace Element

/-- The values and texts in an element. -/
def strings (e : Element) : List String := e.pieces.flatMap Piece.strings

theorem strings_node (name : String) (attributes : Attributes)
    (children : List Element) :
    (Element.node name attributes children).strings
      = attributes.map (·.2) ++ children.flatMap strings := by
  have hall : (piecesAll children).flatMap Piece.strings
      = children.flatMap strings := by
    induction children with
    | nil => rfl
    | cons e rest ih =>
        rw [piecesAll, List.flatMap_append, ih]
        rfl
  rw [strings, pieces, List.cons_append, List.flatMap_cons,
    List.flatMap_append, hall]
  simp [Piece.strings]

theorem strings_nodeOrEmpty (name : String) (attributes : Attributes)
    (children : List Element) :
    (nodeOrEmpty name attributes children).strings
      = attributes.map (·.2) ++ children.flatMap strings := by
  cases children with
  | nil => rfl
  | cons e rest => exact strings_node name attributes (e :: rest)

private theorem named_piecesAll {children : List Element}
    (h : ∀ e ∈ children, ∀ p ∈ e.pieces, p.Named) :
    ∀ p ∈ piecesAll children, p.Named := by
  induction children with
  | nil =>
      intro p hp
      exact nomatch hp
  | cons e rest ih =>
      obtain ⟨he, hrest⟩ := List.forall_mem_cons.mp h
      exact List.forall_mem_append.mpr ⟨he, ih hrest⟩

theorem Proper.named {e : Element} (h : e.Proper) :
    ∀ p ∈ e.pieces, p.Named := by
  induction h with
  | empty hn ha => exact List.forall_mem_singleton.mpr ⟨hn, ha.1⟩
  | @text name hn content =>
      intro p hp
      simp only [pieces, List.mem_cons, List.not_mem_nil, or_false] at hp
      rcases hp with rfl | rfl | rfl
      · exact ⟨hn, by simp⟩
      · trivial
      · exact hn
  | @node name attributes children hn ha hne h ih =>
      have hopen : Piece.Named (.opening name attributes) := ⟨hn, ha.1⟩
      have hclose : Piece.Named (.closing name) := hn
      rw [pieces]
      exact List.forall_mem_append.mpr ⟨List.forall_mem_cons.mpr
        ⟨hopen, named_piecesAll ih⟩, List.forall_mem_singleton.mpr hclose⟩

end Element

/-- What is rendered of a proper element is well formed if and only if its
    values and texts hold nothing but characters that are allowed. -/
theorem wellFormed_render_iff {e : Element} (h : e.Proper) (indent : Nat) :
    WellFormed (render indent (.declaration :: e.pieces)).toList
      ↔ ∀ v ∈ e.strings, Allowed v.toList := by
  have hnamed : ∀ p ∈ Piece.declaration :: e.pieces, p.Named :=
    List.forall_mem_cons.mpr ⟨trivial, h.named⟩
  have hchars := allowed_layout hnamed indent .start
  have htext : (render indent (.declaration :: e.pieces)).toList
      = layout indent .start (.declaration :: e.pieces) := by
    rw [render, String.toList_ofList]
    rfl
  rw [← htext] at hchars
  constructor
  · intro hw
    exact hchars.mp hw.chars
  · intro hv
    exact ⟨⟨e, isDocument_render h indent⟩, hchars.mpr hv⟩

end RiskExchange.Markup
