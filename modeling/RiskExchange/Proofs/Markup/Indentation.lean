import RiskExchange.Proofs.Markup.Spelling

/-! # Indentation — what an indent adds to a text

    `broken` goes through a text and puts a line break and spaces in front of
    its tags. It knows nothing of pieces and cursors: a tag is told by what is
    written between its angle brackets, and the depth is counted from the tags.
    What is rendered with an indent is what is rendered without one, broken
    (`render_eq_broken`), so an indent adds these breaks and nothing else. -/

namespace RiskExchange.Markup

/-! ## Breaking a text -/

/-- What a tag is. -/
inductive TagKind where
  | declaration
  | opening
  | closing
  | single
  deriving DecidableEq, Repr

/-- What a tag is, by what stands between its angle brackets. -/
def TagKind.of (inside : List Char) : TagKind :=
  if inside.head? = some '?' then .declaration
  else if inside.head? = some '/' then .closing
  else if inside.getLast? = some '/' then .single
  else .opening

/-- The number of elements open around a tag, from the number of those that are
    open in front of it. -/
def TagKind.around (depth : Nat) : TagKind → Nat
  | .closing => depth - 1
  | _ => depth

/-- The number of elements that are open behind a tag. -/
def TagKind.behind (depth : Nat) : TagKind → Nat
  | .opening => depth + 1
  | .closing => depth - 1
  | _ => depth

/-- A line break and spaces. -/
def lineBreak (spaces : Nat) : List Char :=
  '\n' :: List.replicate spaces ' '

/-- What is put in front of a tag: nothing in front of the declaration and of
    the end tag of an element that holds a text, a line break in front of any
    other. -/
def breakFor (textual : String) (indent depth : Nat) (inside : List Char) :
    List Char :=
  if TagKind.of inside = .declaration ∨ inside = '/' :: textual.toList then []
  else lineBreak (indent * (TagKind.of inside).around depth)

/-- What is left of a tag behind its left angle bracket. -/
def insideTag (rest : List Char) : List Char := rest.takeWhile (· ≠ '>')

/-- A text with line breaks in front of its tags. Texts stand in the elements
    of one name, and a number of elements are open at the start. -/
def broken (textual : String) (indent : Nat) : Nat → List Char → List Char
  | _, [] => []
  | depth, c :: rest =>
    if c = '<' then
      breakFor textual indent depth (insideTag rest) ++ c ::
        broken textual indent ((TagKind.of (insideTag rest)).behind depth) rest
    else c :: broken textual indent depth rest

variable {textual name : String} {indent depth : Nat} {s rest : List Char}
  {attributes : Attributes}

/-- Nothing is put into what holds no tag. -/
theorem broken_append (h : '<' ∉ s) (rest : List Char) :
    broken textual indent depth (s ++ rest)
      = s ++ broken textual indent depth rest := by
  induction s with
  | nil => rfl
  | cons c more ih =>
      have hc : c ≠ '<' := fun heq => h (heq ▸ List.mem_cons_self ..)
      rw [List.cons_append, broken, if_neg hc,
        ih (fun hmem => h (List.mem_cons_of_mem _ hmem)), List.cons_append]

/-- One tag, and what follows it. -/
theorem broken_tag (hless : '<' ∉ s) (hmore : '>' ∉ s) (rest : List Char) :
    broken textual indent depth ('<' :: s ++ ['>'] ++ rest)
      = breakFor textual indent depth s ++ ('<' :: s ++ ['>'])
        ++ broken textual indent ((TagKind.of s).behind depth) rest := by
  have hinside : insideTag (s ++ ['>'] ++ rest) = s := by
    rw [insideTag, List.append_assoc, List.takeWhile_append_of_pos, List.cons_append,
      List.takeWhile_cons_of_neg, List.append_nil]
    · simp
    · intro c hc
      exact decide_eq_true (fun heq => hmore (heq ▸ hc))
  have hfree : '<' ∉ s ++ ['>'] := by simp [hless]
  rw [List.cons_append, List.cons_append, broken, if_pos rfl, hinside,
    broken_append hfree]
  simp only [List.append_assoc, List.cons_append]

/-! ## Characters of tags -/

private theorem not_mem_of_isName {c : Char} (hc : isNameChar c = false)
    (h : IsName s) : c ∉ s := by
  cases s with
  | nil => exact List.not_mem_nil
  | cons a more =>
      intro hmem
      rcases List.mem_cons.mp hmem with rfl | hmem
      · simp [isNameChar, h.1] at hc
      · simp [h.2 c hmem] at hc

/-- One of the two angle brackets. -/
def IsBracket (c : Char) : Prop := c = '<' ∨ c = '>'

/-- An angle bracket is escaped, stands in no name and is no other sign. -/
private theorem IsBracket.signs {c : Char} (hc : IsBracket c) :
    c ∈ escapedMarks ∧ isNameChar c = false ∧
      c ∉ [' ', '=', '"', '/'] := by
  rcases hc with rfl | rfl
  · decide
  · decide

/-- Escaping leaves no angle brackets. -/
theorem IsBracket.not_mem_escape {c : Char} (hc : IsBracket c) (v : String) :
    c ∉ escape v := by
  intro hmem
  obtain ⟨a, -, ha⟩ := List.mem_flatMap.mp hmem
  rcases escapeChar_cases a with ⟨hplain, heq⟩ | ⟨e, he, -, heq⟩
  · rw [heq] at ha
    rw [← List.mem_singleton.mp ha] at hplain
    exact hplain hc.signs.1
  · have hentity : ∀ e ∈ entities, '<' ∉ '&' :: e.1.toList ++ [';'] ∧
        '>' ∉ '&' :: e.1.toList ++ [';'] := by
      decide
    obtain ⟨hless, hmore⟩ := hentity e he
    rw [heq] at ha
    rcases hc with rfl | rfl
    · exact hless ha
    · exact hmore ha

private theorem IsBracket.not_mem_attributesText {c : Char}
    (hc : IsBracket c) (h : ∀ a ∈ attributes, IsName a.1.toList) :
    c ∉ attributesText attributes := by
  obtain ⟨-, hname, hsigns⟩ := hc.signs
  simp only [List.mem_cons, List.not_mem_nil, or_false, not_or] at hsigns
  intro hmem
  obtain ⟨⟨key, value⟩, ha, hmem⟩ := List.mem_flatMap.mp hmem
  have hkey := not_mem_of_isName hname (h _ ha)
  have hvalue := hc.not_mem_escape value
  simp [hkey, hvalue, hsigns] at hmem

/-- The declaration without its angle brackets. -/
def declarationInside : String := "?xml version=\"1.0\" encoding=\"UTF-8\"?"

/-- What stands between the angle brackets of a tag. -/
def Piece.inside : Piece → List Char
  | .declaration => declarationInside.toList
  | .opening name attributes => name.toList ++ attributesText attributes
  | .closing name => '/' :: name.toList
  | .single name attributes =>
    name.toList ++ (attributesText attributes ++ ['/'])
  | .text _ => []

/-- A piece that is a text is written without brackets, any other one between
    them. -/
theorem Piece.written_cases (p : Piece) :
    (∃ content, p = .text content) ∨
      p.written = '<' :: p.inside ++ ['>'] := by
  cases p with
  | declaration => exact .inr (by decide)
  | opening name attributes => exact .inr (by simp [written, inside])
  | closing name => exact .inr rfl
  | single name attributes => exact .inr (by simp [written, inside])
  | text content => exact .inl ⟨content, rfl⟩

/-- There is no other bracket between those of a tag. -/
theorem IsBracket.not_mem_inside {c : Char} (hc : IsBracket c) {p : Piece}
    (h : p.Named) : c ∉ p.inside := by
  obtain ⟨-, hname, hsigns⟩ := hc.signs
  simp only [List.mem_cons, List.not_mem_nil, or_false, not_or] at hsigns
  cases p with
  | declaration =>
      rcases hc with rfl | rfl
      · decide
      · decide
  | opening name attributes =>
      obtain ⟨hn, ha⟩ : IsName name.toList ∧ ∀ a ∈ attributes, _ := h
      exact List.not_mem_append (not_mem_of_isName hname hn)
        (hc.not_mem_attributesText ha)
  | closing name =>
      refine List.not_mem_cons_of_ne_of_not_mem ?_ ?_
      · exact hsigns.2.2.2
      · exact not_mem_of_isName hname h
  | single name attributes =>
      obtain ⟨hn, ha⟩ : IsName name.toList ∧ ∀ a ∈ attributes, _ := h
      refine List.not_mem_append (not_mem_of_isName hname hn)
        (List.not_mem_append (hc.not_mem_attributesText ha) ?_)
      exact fun hmem => hsigns.2.2.2 (List.mem_singleton.mp hmem)
  | text content => exact List.not_mem_nil

/-! ## Kinds of tags -/

/-- A tag that begins with a name is a start tag or an empty element. -/
private theorem of_name_append {n : List Char} (hn : IsName n)
    (more : List Char) : TagKind.of (n ++ more)
      = if (n ++ more).getLast? = some '/' then .single else .opening := by
  cases n with
  | nil => exact nomatch hn
  | cons c rest =>
      have hne {m : Char} (hm : isNameStart m = false) : c ≠ m := by
        rintro rfl
        have hstart : isNameStart c = true := hn.1
        rw [hm] at hstart
        exact nomatch hstart
      have hquestion : c ≠ '?' := hne (by decide)
      have hslash : c ≠ '/' := hne (by decide)
      simp [TagKind.of, hquestion, hslash]

private theorem getLast?_attributesText (hn : IsName name.toList)
    (attributes : Attributes) :
    (name.toList ++ attributesText attributes).getLast? ≠ some '/' := by
  rcases List.eq_nil_or_concat attributes with rfl | ⟨init, a, rfl⟩
  · intro hlast
    rw [attributesText, List.flatMap_nil, List.append_nil] at hlast
    exact not_mem_of_isName (c := '/') (by decide) hn
      (List.mem_of_getLast? hlast)
  · -- the last attribute ends with a quote
    have hquote : attributesText (init ++ [a]) = attributesText init
        ++ (' ' :: a.1.toList ++ '=' :: '"' :: escape a.2) ++ ['"'] := by
      simp [attributesText]
    rw [List.concat_eq_append, hquote, ← List.append_assoc,
      List.getLast?_concat]
    decide

private theorem of_closing (n : List Char) :
    TagKind.of ('/' :: n) = .closing := by
  simp [TagKind.of]

/-- The depth that is counted is the one of the cursor. -/
theorem behind_inside {p : Piece} (h : p.Named) (cursor : Cursor)
    (hp : ∀ content, p ≠ .text content) :
    (TagKind.of p.inside).behind cursor.depth = (cursor.after p).depth := by
  cases p with
  | declaration =>
      have hkind : TagKind.of Piece.declaration.inside = .declaration := by
        decide
      rw [hkind]
      rfl
  | opening name attributes =>
      have hn : IsName name.toList := And.left h
      rw [Piece.inside, of_name_append hn,
        if_neg (getLast?_attributesText hn attributes)]
      rfl
  | closing name =>
      rw [Piece.inside, of_closing]
      rfl
  | single name attributes =>
      have hn : IsName name.toList := And.left h
      rw [Piece.inside, of_name_append hn, if_pos (by simp)]
      rfl
  | text content => exact absurd rfl (hp content)

/-- In front of a tag that begins with a name there is a line break. -/
private theorem breakFor_name_append {n : List Char} (hn : IsName n)
    (more : List Char) : breakFor textual indent depth (n ++ more)
      = lineBreak (indent * depth) := by
  have hkind := of_name_append hn more
  have hslash : n ++ more ≠ '/' :: textual.toList := by
    intro heq
    rw [heq, of_closing] at hkind
    split at hkind
    · exact nomatch hkind
    · exact nomatch hkind
  rw [breakFor, hkind]
  split
  · simp [hslash, TagKind.around]
  · simp [hslash, TagKind.around]

/-! ## Pieces -/

/-- Whether a line break is due where a piece stands, if texts stand in the
    elements of one name. In front of a text it does not matter. -/
def Piece.Due (textual : String) (due : Bool) : Piece → Prop
  | .declaration => due = false
  | .closing name => due = decide (name ≠ textual)
  | .opening _ _ | .single _ _ => due = true
  | .text _ => True

/-- What is put in front of a tag is the line break that is due there. -/
theorem breakFor_inside (hi : indent ≠ 0) {p : Piece} {cursor : Cursor}
    (h : p.Named) (hdue : p.Due textual cursor.breakDue)
    (hp : ∀ content, p ≠ .text content) :
    breakFor textual indent cursor.depth p.inside
      = breakBefore indent cursor p := by
  obtain ⟨depth, due⟩ := cursor
  cases p with
  | declaration =>
      cases (hdue : due = false)
      have hkind : TagKind.of Piece.declaration.inside = .declaration := by
        decide
      rw [breakFor, if_pos (.inl hkind)]
      exact (if_neg (fun h => Bool.false_ne_true h.2)).symm
  | opening name attributes =>
      have hn : IsName name.toList := And.left h
      exact (breakFor_name_append hn _).trans (if_pos ⟨hi, hdue⟩).symm
  | closing name =>
      have hd : due = decide (name ≠ textual) := hdue
      subst hd
      by_cases heq : name = textual
      · simp [breakFor, breakBefore, Piece.inside, heq]
      · simp [breakFor, breakBefore, Piece.inside, Piece.depth, heq, hi,
          of_closing, String.toList_inj, lineBreak, TagKind.around]
  | single name attributes =>
      have hn : IsName name.toList := And.left h
      exact (breakFor_name_append hn _).trans (if_pos ⟨hi, hdue⟩).symm
  | text content => exact absurd rfl (hp content)

/-- One piece is broken as it is laid out. -/
theorem broken_written (hi : indent ≠ 0) {p : Piece} {cursor : Cursor}
    (h : p.Named) (hdue : p.Due textual cursor.breakDue) (rest : List Char) :
    broken textual indent cursor.depth (p.written ++ rest)
      = breakBefore indent cursor p ++ p.written
        ++ broken textual indent (cursor.after p).depth rest := by
  have hless : IsBracket '<' := .inl rfl
  have hmore : IsBracket '>' := .inr rfl
  rcases p.written_cases with ⟨content, rfl⟩ | hwritten
  · exact broken_append (hless.not_mem_escape content) rest
  · have hp : ∀ content, p ≠ .text content := by
      rintro content rfl
      have hmem : '<' ∈ (Piece.text content).written := by
        rw [hwritten]
        exact List.mem_cons_self ..
      exact hless.not_mem_escape content hmem
    rw [hwritten, broken_tag (hless.not_mem_inside h)
      (hmore.not_mem_inside h), behind_inside h cursor hp,
      breakFor_inside hi h hdue hp]

/-! ## Runs of pieces -/

/-- Line breaks are due where they should be, all along. -/
def InStep (textual : String) : Cursor → List Piece → Prop
  | _, [] => True
  | cursor, p :: rest =>
    p.Due textual cursor.breakDue ∧ InStep textual (cursor.after p) rest

theorem inStep_append {cursor : Cursor} {as bs : List Piece}
    (ha : InStep textual cursor as)
    (hb : InStep textual (as.foldl Cursor.after cursor) bs) :
    InStep textual cursor (as ++ bs) := by
  induction as generalizing cursor with
  | nil => exact hb
  | cons p rest ih => exact ⟨ha.1, ih ha.2 hb⟩

/-- Pieces are broken as they are laid out. -/
theorem broken_layout (hi : indent ≠ 0) {pieces : List Piece}
    (h : ∀ p ∈ pieces, p.Named) {cursor : Cursor}
    (hs : InStep textual cursor pieces) :
    broken textual indent cursor.depth (layout 0 cursor pieces)
      = layout indent cursor pieces := by
  induction pieces generalizing cursor with
  | nil => rfl
  | cons p rest ih =>
      obtain ⟨hp, hrest⟩ := List.forall_mem_cons.mp h
      have hnone : breakBefore 0 cursor p = [] := by
        cases p <;> simp [breakBefore]
      rw [layout_cons, layout_cons, hnone, List.nil_append,
        broken_written hi hp hs.1, ih hrest hs.2]

/-! ## Elements -/

/-- Texts stand in the elements of one name, and nothing else does. -/
inductive Element.TextIn (textual : String) : Element → Prop where
  | empty (name : String) (attributes : Attributes) :
      TextIn textual (.empty name attributes)
  | text (content : String) : TextIn textual (.text textual content)
  | node {name : String} (attributes : Attributes) {children : List Element}
      (hne : name ≠ textual) (h : ∀ e ∈ children, TextIn textual e) :
      TextIn textual (.node name attributes children)

/-- Behind the pieces the cursor is as deep as before, and a break is due. -/
private theorem inStep_piecesAll {children : List Element}
    (h : ∀ e ∈ children, ∀ depth, InStep textual ⟨depth, true⟩ e.pieces ∧
      e.pieces.foldl Cursor.after ⟨depth, true⟩ = ⟨depth, true⟩)
    (depth : Nat) :
    InStep textual ⟨depth, true⟩ (Element.piecesAll children) ∧
      (Element.piecesAll children).foldl Cursor.after ⟨depth, true⟩
        = ⟨depth, true⟩ := by
  induction children with
  | nil => exact ⟨trivial, rfl⟩
  | cons e rest ih =>
      obtain ⟨he, hrest⟩ := List.forall_mem_cons.mp h
      obtain ⟨hstep, hend⟩ := he depth
      obtain ⟨hsteps, hends⟩ := ih hrest
      rw [Element.piecesAll]
      refine ⟨inStep_append hstep ?_, ?_⟩
      · rw [hend]
        exact hsteps
      · rw [List.foldl_append, hend, hends]

theorem Element.TextIn.inStep {e : Element} (h : e.TextIn textual)
    (depth : Nat) : InStep textual ⟨depth, true⟩ e.pieces ∧
      e.pieces.foldl Cursor.after ⟨depth, true⟩ = ⟨depth, true⟩ := by
  induction h generalizing depth with
  | empty name attributes => exact ⟨⟨rfl, trivial⟩, rfl⟩
  | text content =>
      -- no break is due behind the text
      exact ⟨⟨rfl, trivial, by simp [Piece.Due, Cursor.after], trivial⟩, rfl⟩
  | @node name attributes children hne h ih =>
      obtain ⟨hsteps, hend⟩ := inStep_piecesAll ih (depth + 1)
      rw [pieces, List.cons_append]
      refine ⟨⟨rfl, inStep_append hsteps ?_⟩, ?_⟩
      · rw [Cursor.after, hend]
        exact ⟨(decide_eq_true hne).symm, trivial⟩
      · rw [List.foldl_cons, List.foldl_append, Cursor.after, hend]
        rfl

/-- What an indent adds to a document are the line breaks of its tags. -/
theorem render_eq_broken {e : Element} (h : e.Proper) (ht : e.TextIn textual)
    (hi : indent ≠ 0) :
    (render indent (.declaration :: e.pieces)).toList
      = broken textual indent 0
        (render 0 (.declaration :: e.pieces)).toList := by
  have hnamed : ∀ p ∈ Piece.declaration :: e.pieces, p.Named :=
    List.forall_mem_cons.mpr ⟨trivial, h.named⟩
  have hstep : InStep textual .start (.declaration :: e.pieces) :=
    ⟨rfl, (ht.inStep 0).1⟩
  rw [render, render, String.toList_ofList, String.toList_ofList]
  exact (broken_layout hi hnamed hstep).symm

end RiskExchange.Markup
