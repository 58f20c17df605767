import Mathlib.Algebra.BigOperators.Group.List.Basic
import Mathlib.Algebra.GroupWithZero.Nat
import RiskExchange.Markup.Sink

/-! # Rendering — the tags in a written text, and sinks with room for it

    Whatever is escaped holds no left angle bracket, so the brackets of a
    written text are those of its tags, and the name behind each of them can be
    read off (`tagNames_chunks`). The elements of a name can therefore be
    counted in the text, and there are as many as in the element that was
    written (`elementCount_render`). A sink with enough room takes the whole
    text (`write_of_room`). -/

namespace RiskExchange.Markup

/-! ## Names in tags -/

/-- The character ends a name in a tag. -/
def endsName (c : Char) : Bool := c == ' ' || c == '/' || c == '>'

/-- The names behind the left angle brackets of a text: those of start tags and
    of empty elements, and an empty one for each end tag. -/
def tagNames : List Char → List (List Char)
  | [] => []
  | c :: rest =>
    if c = '<' then rest.takeWhile (!endsName ·) :: tagNames rest
    else tagNames rest

/-- The number of elements of a name in a text. -/
def elementCount (name text : String) : Nat :=
  (tagNames text.toList).count name.toList

variable {s rest : List Char} {n : List Char} {c : Char}

theorem tagNames_append (h : '<' ∉ s) (rest : List Char) :
    tagNames (s ++ rest) = tagNames rest := by
  induction s with
  | nil => rfl
  | cons a more ih =>
      have ha : a ≠ '<' := fun heq => h (heq ▸ List.mem_cons_self ..)
      rw [List.cons_append, tagNames, if_neg ha]
      exact ih (fun hmem => h (List.mem_cons_of_mem _ hmem))

/-- The characters may stand in a name. -/
def PlainChars (n : List Char) : Prop := ∀ c ∈ n, endsName c = false ∧ c ≠ '<'

instance (n : List Char) : Decidable (PlainChars n) :=
  decidable_of_iff (n.all fun c => !endsName c && c != '<')
    (by simp [PlainChars])

theorem PlainChars.not_mem (h : PlainChars n) : '<' ∉ n :=
  fun hmem => (h '<' hmem).2 rfl

/-- A tag has one name, which ends with the name's characters. -/
theorem tagNames_tag (hn : PlainChars n) (hc : endsName c = true)
    (hs : '<' ∉ c :: s) (rest : List Char) :
    tagNames ('<' :: (n ++ c :: s) ++ rest) = n :: tagNames rest := by
  have hname : ((n ++ c :: s) ++ rest).takeWhile (!endsName ·) = n := by
    rw [List.append_assoc, List.takeWhile_append_of_pos, List.cons_append,
      List.takeWhile_cons_of_neg, List.append_nil]
    · simp [hc]
    · intro a ha
      simp [(hn a ha).1]
  have hfree : '<' ∉ n ++ c :: s := by
    intro hmem
    rcases List.mem_append.mp hmem with h | h
    · exact hn.not_mem h
    · exact hs h
  rw [List.cons_append, tagNames, if_pos rfl, hname,
    tagNames_append hfree]

/-! ## Escaped texts -/

private theorem not_mem_escapeChar (c : Char) : '<' ∉ escapeChar c := by
  unfold escapeChar
  by_cases hc : c = '<'
  · rw [if_pos hc]
    decide
  · rw [if_neg hc]
    split_ifs
    · decide
    · decide
    · decide
    · decide
    · exact fun hmem => hc (List.mem_singleton.mp hmem).symm

theorem not_mem_escape (text : String) : '<' ∉ escape text := by
  intro hmem
  obtain ⟨c, -, hc⟩ := List.mem_flatMap.mp hmem
  exact not_mem_escapeChar c hc

/-- The names of attributes hold no left angle bracket. -/
def PlainAttributes (attributes : Attributes) : Prop :=
  ∀ a ∈ attributes, '<' ∉ a.1.toList

theorem plainAttributes_nil : PlainAttributes [] := fun _ ha => nomatch ha

theorem PlainAttributes.cons {attributes : Attributes} {name : String}
    (hn : '<' ∉ name.toList) (h : PlainAttributes attributes)
    (value : String) : PlainAttributes ((name, value) :: attributes) :=
  List.forall_mem_cons.mpr ⟨hn, h⟩

private theorem not_mem_attributesText {attributes : Attributes}
    (h : PlainAttributes attributes) : '<' ∉ attributesText attributes := by
  intro hmem
  obtain ⟨⟨name, value⟩, ha, hc⟩ := List.mem_flatMap.mp hmem
  have hname : '<' ∉ name.toList := h _ ha
  have hvalue := not_mem_escape value
  simp [hname, hvalue] at hc

/-- What follows the name in a tag ends the name and begins no other tag. -/
private theorem attributesText_append {attributes : Attributes}
    (h : PlainAttributes attributes) {close : List Char}
    (hc : endsName c = true) (hclose : '<' ∉ c :: close) :
    ∃ c' s, attributesText attributes ++ c :: close = c' :: s ∧
      endsName c' = true ∧ '<' ∉ c' :: s := by
  have hfree : '<' ∉ attributesText attributes ++ c :: close := by
    intro hmem
    rcases List.mem_append.mp hmem with h1 | h1
    · exact not_mem_attributesText h h1
    · exact hclose h1
  cases attributes with
  | nil => exact ⟨c, close, rfl, hc, hclose⟩
  | cons a more => exact ⟨' ', _, rfl, rfl, hfree⟩

/-! ## Pieces -/

/-- The names in a piece can be told from what follows them. -/
def Piece.Plain : Piece → Prop
  | .opening name attributes | .single name attributes =>
    PlainChars name.toList ∧ PlainAttributes attributes
  | .closing name => '<' ∉ name.toList
  | .declaration | .text _ => True

/-- The names behind the left angle brackets of a piece. -/
def Piece.tagNames : Piece → List (List Char)
  | .declaration => ["?xml".toList]
  | .opening name _ | .single name _ => [name.toList]
  | .closing _ => [[]]
  | .text _ => []

theorem tagNames_written {p : Piece} (h : p.Plain) (rest : List Char) :
    tagNames (p.written ++ rest) = p.tagNames ++ tagNames rest := by
  -- start tags and empty elements differ in how they close only
  have htag {name : String} {attributes : Attributes}
      (hp : PlainChars name.toList ∧ PlainAttributes attributes)
      {c : Char} {close : List Char} (hc : endsName c = true)
      (hclose : '<' ∉ c :: close) :
      tagNames ('<' :: name.toList ++ attributesText attributes
        ++ c :: close ++ rest) = name.toList :: tagNames rest := by
    obtain ⟨c', s, heq, hc', hs⟩ := attributesText_append hp.2 hc hclose
    rw [List.append_assoc _ _ (c :: close), heq]
    exact tagNames_tag hp.1 hc' hs rest
  cases p with
  | declaration =>
      exact tagNames_tag (n := "?xml".toList) (c := ' ')
        (s := "version=\"1.0\" encoding=\"UTF-8\"?>".toList)
        (by decide) rfl (by decide) rest
  | opening name attributes => exact htag h rfl (by decide)
  | single name attributes => exact htag h rfl (by decide)
  | closing name =>
      -- the slash ends the name before it has begun
      have hs : '<' ∉ '/' :: (name.toList ++ ['>']) := by
        have hname : '<' ∉ name.toList := h
        simp [hname]
      exact tagNames_tag (n := []) (by simp [PlainChars]) rfl hs rest
  | text content => exact tagNames_append (not_mem_escape content) rest

private theorem not_mem_breakBefore (indent : Nat) (cursor : Cursor)
    (p : Piece) : '<' ∉ breakBefore indent cursor p := by
  have hbreak : '<' ∉ (if indent ≠ 0 ∧ cursor.breakDue then
      '\n' :: List.replicate (indent * p.depth cursor) ' ' else []) := by
    split_ifs
    · simp
    · exact List.not_mem_nil
  cases p with
  | text content => exact List.not_mem_nil
  | declaration => exact hbreak
  | opening name attributes => exact hbreak
  | closing name => exact hbreak
  | single name attributes => exact hbreak

/-- The names in a written text are those of its pieces. -/
theorem tagNames_chunks {pieces : List Piece} (h : ∀ p ∈ pieces, p.Plain)
    (indent : Nat) (cursor : Cursor) :
    tagNames (chunks indent cursor pieces).flatten
      = pieces.flatMap Piece.tagNames := by
  induction pieces generalizing cursor with
  | nil => rfl
  | cons p rest ih =>
      rw [chunks, List.flatten_cons, List.append_assoc,
        tagNames_append (not_mem_breakBefore indent cursor p),
        tagNames_written (h p (List.mem_cons_self ..)),
        ih (fun q hq => h q (List.mem_cons_of_mem _ hq)), List.flatMap_cons]

/-! ## Elements -/

namespace Element

theorem piecesAll_eq_flatMap (es : List Element) :
    piecesAll es = es.flatMap pieces := by
  induction es with
  | nil => rfl
  | cons e rest ih => rw [piecesAll, ih, List.flatMap_cons]

/-- The names in the element can be told from what follows them. -/
def Plain (e : Element) : Prop := ∀ p ∈ e.pieces, p.Plain

variable {name : String} {attributes : Attributes} {children : List Element}

theorem Plain.empty (hn : PlainChars name.toList)
    (ha : PlainAttributes attributes) : Plain (.empty name attributes) := by
  intro p hp
  rw [List.mem_singleton.mp hp]
  exact ⟨hn, ha⟩

theorem Plain.text (hn : PlainChars name.toList) (content : String) :
    Plain (.text name content) := by
  intro p hp
  rw [pieces] at hp
  rcases List.mem_cons.mp hp with rfl | hp
  · exact ⟨hn, plainAttributes_nil⟩
  · rcases List.mem_cons.mp hp with rfl | hp
    · trivial
    · rw [List.mem_singleton.mp hp]
      exact hn.not_mem

theorem Plain.node (hn : PlainChars name.toList)
    (ha : PlainAttributes attributes) (hc : ∀ e ∈ children, e.Plain) :
    Plain (.node name attributes children) := by
  intro p hp
  rw [pieces, piecesAll_eq_flatMap] at hp
  rcases List.mem_append.mp hp with hp | hp
  · rcases List.mem_cons.mp hp with rfl | hp
    · exact ⟨hn, ha⟩
    · obtain ⟨e, he, hp⟩ := List.mem_flatMap.mp hp
      exact hc e he p hp
  · rw [List.mem_singleton.mp hp]
    exact hn.not_mem

theorem Plain.nodeOrEmpty (hn : PlainChars name.toList)
    (ha : PlainAttributes attributes) (hc : ∀ e ∈ children, e.Plain) :
    (nodeOrEmpty name attributes children).Plain := by
  cases children with
  | nil => exact Plain.empty hn ha
  | cons e rest => exact Plain.node hn ha hc

/-- The number of elements of a name, by the names in their tags. -/
def count (name : String) (e : Element) : Nat :=
  (e.pieces.flatMap Piece.tagNames).count name.toList

/-- One if an element has the name that is counted, none if not. -/
def one (name counted : String) : Nat := if name = counted then 1 else 0

variable {counted : String}

private theorem count_name (name : String) (more : List (List Char)) :
    (name.toList :: more).count counted.toList
      = one name counted + more.count counted.toList := by
  rw [List.count_cons, one, Nat.add_comm]
  by_cases h : name = counted
  · rw [h, beq_self_eq_true, if_pos rfl, if_pos rfl]
  · have hchars : name.toList ≠ counted.toList :=
      fun heq => h (String.toList_inj.mp heq)
    rw [beq_false_of_ne hchars, if_neg Bool.false_ne_true, if_neg h]

/-- An end tag has no name, so it is not counted. -/
private theorem count_closing (hne : counted ≠ "") :
    [([] : List Char)].count counted.toList = 0 := by
  refine List.count_eq_zero.mpr ?_
  intro hmem
  exact hne (String.toList_inj.mp (List.mem_singleton.mp hmem))

theorem count_empty : (Element.empty name attributes).count counted
    = one name counted := count_name name []

theorem count_text (hne : counted ≠ "") (content : String) :
    (Element.text name content).count counted = one name counted := by
  have h : (Element.text name content).count counted
      = (name.toList :: [[]]).count counted.toList := rfl
  rw [h, count_name, count_closing hne, Nat.add_zero]

theorem count_node (hne : counted ≠ "") :
    (Element.node name attributes children).count counted
      = one name counted + (children.map (count counted)).sum := by
  have h : (Element.node name attributes children).count counted
      = (name.toList :: ((piecesAll children).flatMap Piece.tagNames
        ++ [[]])).count counted.toList := by
    rw [count, pieces, List.cons_append, List.flatMap_cons,
      List.flatMap_append]
    rfl
  rw [h, count_name, List.count_append, count_closing hne, Nat.add_zero,
    piecesAll_eq_flatMap, List.flatMap_assoc, List.count_flatMap]
  rfl

theorem count_nodeOrEmpty (hne : counted ≠ "") :
    (nodeOrEmpty name attributes children).count counted
      = one name counted + (children.map (count counted)).sum := by
  cases children with
  | nil => exact count_empty
  | cons e rest => exact count_node hne

end Element

/-! ## Whole documents -/

/-- As many elements of a name can be counted in the text of a document as
    there are. -/
theorem elementCount_render {e : Element} (h : e.Plain) {counted : String}
    (hne : counted ≠ "?xml") (indent : Nat) :
    elementCount counted (render indent (.declaration :: e.pieces))
      = e.count counted := by
  have hplain : ∀ p ∈ Piece.declaration :: e.pieces, p.Plain :=
    List.forall_mem_cons.mpr ⟨trivial, h⟩
  have hxml : "?xml".toList ≠ counted.toList :=
    fun heq => hne (String.toList_inj.mp heq).symm
  rw [elementCount, render, String.toList_ofList, tagNames_chunks hplain,
    List.flatMap_cons, Element.count]
  exact List.count_cons_of_ne hxml

/-! ## Sinks -/

namespace Sink

/-- Chunks that all fit are all taken. -/
theorem writeAll_of_room {s : Sink} {chunks : List (List UInt8)}
    (h : chunks.flatten.length ≤ s.room) : s.writeAll chunks
      = (⟨s.room - chunks.flatten.length, s.taken ++ chunks.flatten⟩,
        true) := by
  induction chunks generalizing s with
  | nil =>
      rw [writeAll, List.flatten_nil, List.append_nil]
      rfl
  | cons chunk rest ih =>
      rw [List.flatten_cons, List.length_append] at h
      have hchunk : chunk.length ≤ s.room := by omega
      have hrest : rest.flatten.length ≤ s.room - chunk.length := by omega
      have htake : s.take chunk
          = ⟨s.room - chunk.length, s.taken ++ chunk⟩ := by
        rw [take, List.take_of_length_le hchunk]
      rw [writeAll, if_pos hchunk, htake, ih hrest, List.flatten_cons,
        List.length_append, List.append_assoc, Nat.sub_sub]

theorem octets_flatten (css : List (List Char)) :
    (css.map octets).flatten = octets css.flatten := by
  induction css with
  | nil => rfl
  | cons cs rest ih =>
      rw [List.map_cons, List.flatten_cons, ih, List.flatten_cons]
      exact List.flatMap_append.symm

theorem toList_toUTF8 (cs : List Char) :
    (String.ofList cs).toUTF8.data.toList = octets cs := by
  rw [String.toUTF8, String.toByteArray_ofList, List.utf8Encode,
    List.data_toByteArray]
  rfl

/-- A sink with room for the whole text takes it, and so writing does not
    fail. -/
theorem write_of_room {room : Nat} {indent : Nat} {pieces : List Piece}
    (h : (render indent pieces).toUTF8.size ≤ room) :
    (ofRoom room).write indent pieces
      = (⟨room - (render indent pieces).toUTF8.size,
          (render indent pieces).toUTF8.data.toList⟩, true) := by
  have hbytes := toList_toUTF8 (chunks indent .start pieces).flatten
  have hsize : (render indent pieces).toUTF8.size
      = (octets (chunks indent .start pieces).flatten).length := by
    rw [← hbytes, Array.length_toList]
    rfl
  rw [hsize] at h ⊢
  rw [render, hbytes, write, writeAll_of_room]
  · rw [octets_flatten]
    rfl
  · rw [octets_flatten]
    exact h

end Sink
end RiskExchange.Markup
