import RiskExchange.Proofs.Json.Grammar

/-! # Parsing — a text is read as the tree that it spells

    Wherever a value is due, the tokens of its text are parsed into its tree
    (`parses_of_spells`). White space makes no tokens, so however a text is
    spaced, it is read as the tree that it spells (`read_of_isJson`). -/

namespace RiskExchange.Json

open RiskExchange.Text (Glyph)

variable {stack : List Frame} {due : Due} {rest : List Glyph} {c : Char}
  {s w : List Char}

/-! ## White space -/

theorem lexFrom_blank (hw : Blank w) (rest : List Glyph) :
    lexFrom .between (asGlyphs w ++ rest) = lexFrom .between rest := by
  induction w with
  | nil => rfl
  | cons c more ih =>
      obtain ⟨hc, hmore⟩ := List.forall_mem_cons.mp hw
      have hstep : Mode.step .between (.char c) = ([], some .between) := by
        simp [Mode.step, Mode.start, hc]
      exact (lexFrom_step .between hstep).trans (ih hmore)

/-- Marks and white space end a numeral. -/
def Ends (c : Char) : Prop :=
  isSpace c = true ∨ c = ',' ∨ c = ']' ∨ c = '\x7d'

theorem endsNumeral_of_ends (hc : Ends c) (rest : List Glyph) :
    EndsNumeral (.char c :: rest) := by
  rintro g ⟨⟩
  rw [Ends, isSpace] at hc
  simp only [Bool.or_eq_true, beq_iff_eq] at hc
  rcases hc with (((rfl | rfl) | rfl) | rfl) | rfl | rfl | rfl
  all_goals exact ⟨rfl, by decide, rfl⟩

theorem endsNumeral_blank (hw : Blank w) (h : EndsNumeral rest) :
    EndsNumeral (asGlyphs w ++ rest) := by
  cases w with
  | nil => exact h
  | cons c more =>
      exact endsNumeral_of_ends (.inl (hw c (List.mem_cons_self ..))) _

/-! ## Strings -/

theorem octets_of_hexDigit {n : Nat}
    (h : hexDigit? (.char c) = some n) : (Glyph.char c).octets = 1 := by
  refine Char.utf8Size_eq_one_iff.mpr ?_
  have hbelow {d : Char} (hc : c ≤ d) (hd : d.val ≤ 127) : c.val ≤ 127 :=
    UInt32.le_trans hc hd
  rw [hexDigit?] at h
  split at h
  · rename_i hc
    exact hbelow hc.2 (by decide)
  · split at h
    · rename_i hc
      exact hbelow hc.2 (by decide)
    · split at h
      · rename_i hc
        exact hbelow hc.2 (by decide)
      · exact nomatch h

/-- A digit of a `\u` escape, before the last one and at last. -/
private theorem stepUnit_digit {v n k : Nat}
    (h : hexDigit? (.char c) = some n) (pieces : List Piece) :
    (k < 3 → Mode.step (.unit pieces k (some v)) (.char c)
      = ([], some (.unit pieces (k + 1) (some (v * 16 + n))))) ∧
    Mode.step (.unit pieces 3 (some v)) (.char c)
      = ([], some (.string (.unit (v * 16 + n) :: pieces))) := by
  have hoctets := octets_of_hexDigit h
  constructor
  · intro hk
    have hlt : k + 1 < 4 := by omega
    simp [Mode.step, Mode.stepUnit, hoctets, h, hlt]
  · simp [Mode.step, Mode.stepUnit, hoctets, h]

private theorem lexFrom_piece {p : Piece} (h : SpellsPiece p s)
    (pieces : List Piece) :
    lexFrom (.string pieces) (asGlyphs s ++ rest)
      = lexFrom (.string (p :: pieces)) rest := by
  cases h with
  | @plain c hq hb hc =>
      refine lexFrom_step (.string pieces) ?_
      have hlow : ¬ c.toNat < 0x20 := Nat.not_lt.mpr hc
      simp [Mode.step, Mode.stepString, hq, hb, hlow]
  | @short letter c h =>
      have hu : letter ≠ 'u' := by
        rintro rfl
        exact nomatch h
      have hstep : Mode.step (.escape pieces) (.char letter)
          = ([], some (.string (.short c :: pieces))) := by
        simp [Mode.step, Mode.stepEscape, hu, h]
      refine (lexFrom_step (.string pieces) rfl).trans ?_
      exact lexFrom_step (.escape pieces) hstep
  | @unit a b c d i j k l ha hb hc hd =>
      have hu : Mode.step (.escape pieces) (.char 'u')
          = ([], some (.unit pieces 0 (some 0))) := rfl
      have h0 := (stepUnit_digit ha pieces (k := 0) (v := 0)).1 (by decide)
      have h1 := (stepUnit_digit hb pieces (k := 1) (v := 0 * 16 + i)).1
        (by decide)
      have h2 := (stepUnit_digit hc pieces (k := 2)
        (v := (0 * 16 + i) * 16 + j)).1 (by decide)
      have h3 := (stepUnit_digit hd pieces (k := 3)
        (v := ((0 * 16 + i) * 16 + j) * 16 + k)).2
      have hrun : lexFrom (.unit pieces 0 (some 0))
          (asGlyphs [a, b, c, d] ++ rest) = lexFrom (.string (.unit
            ((((0 * 16 + i) * 16 + j) * 16 + k) * 16 + l) :: pieces)) rest := by
        refine (lexFrom_step (.unit pieces 0 (some 0)) h0).trans ?_
        refine (lexFrom_step (.unit pieces 1 _) h1).trans ?_
        refine (lexFrom_step (.unit pieces 2 _) h2).trans ?_
        exact lexFrom_step (.unit pieces 3 _) h3
      rw [Nat.zero_mul, Nat.zero_add] at hrun
      refine (lexFrom_step (.string pieces) rfl).trans ?_
      exact (lexFrom_step (.escape pieces) hu).trans hrun

private theorem lexFrom_pieces {pieces : List Piece} {texts : List (List Char)}
    (h : List.Forall₂ SpellsPiece pieces texts) (done : List Piece) :
    lexFrom (.string done) (asGlyphs texts.flatten ++ rest)
      = lexFrom (.string (pieces.reverse ++ done)) rest := by
  induction h generalizing done with
  | nil => rfl
  | cons hp h ih =>
      rw [List.flatten_cons, asGlyphs_append, List.append_assoc,
        lexFrom_piece hp, ih, List.reverse_cons, List.append_assoc]
      rfl

/-- A literal is read from every text that spells it. -/
theorem lexFrom_string {l : StringLiteral} (h : SpellsString l s)
    (rest : List Glyph) :
    lexFrom .between (asGlyphs s ++ rest)
      = .string l :: lexFrom .between rest := by
  obtain ⟨h⟩ := h
  rename_i pieces texts
  have hopen : lexFrom .between
      (asGlyphs ('"' :: texts.flatten ++ ['"']) ++ rest)
      = lexFrom (.string []) (asGlyphs texts.flatten
        ++ (.char '"' :: rest)) := by
    rw [asGlyphs_append, List.append_assoc]
    rfl
  rw [hopen, lexFrom_pieces h, List.append_nil]
  change [Token.string ⟨pieces.reverse.reverse, .closed⟩]
    ++ lexFrom .between rest = _
  rw [List.reverse_reverse]
  rfl

/-! ## Parsing goes on -/

/-- Parsing goes on from a state with the tokens that are left. -/
def resume : Progress → List Token → Document
  | .more stack due, tokens => parseFrom stack due tokens
  | .complete root, tokens => ⟨root, !tokens.isEmpty⟩
  | .stopped d, _ => d

theorem parseFrom_cons (stack : List Frame) (due : Due) (t : Token)
    (tokens : List Token) :
    parseFrom stack due (t :: tokens)
      = resume (stepTree stack due t) tokens := by
  rw [parseFrom]
  cases stepTree stack due t with
  | more stack due => rfl
  | complete root => rfl
  | stopped d => rfl

/-- A value may come next. -/
def Due.TakesValue (due : Due) : Prop :=
  due = .value ∨ due = .firstItem ∨ due = .itemAfterComma

theorem stepTree_of_takesValue (h : due.TakesValue) {t : Token}
    (ht : t ≠ .closeArray) (stack : List Frame) :
    stepTree stack due t = stepValue stack t := by
  rcases h with rfl | rfl | rfl
  · rfl
  · cases t <;> first | rfl | exact absurd rfl ht
  · cases t <;> first | rfl | exact absurd rfl ht

/-- Wherever a value is due, the text is parsed into the tree. -/
def Parses (t : Tree) (s : List Char) : Prop :=
  ∀ (stack : List Frame) (due : Due) (rest : List Glyph),
    due.TakesValue → EndsNumeral rest →
    parseFrom stack due (lexFrom .between (asGlyphs s ++ rest))
      = resume (accept t stack) (lexFrom .between rest)

private theorem parses_of_token {v : Tree} {t : Token}
    (ht : t ≠ .closeArray)
    (hlex : ∀ rest, EndsNumeral rest →
      lexFrom .between (asGlyphs s ++ rest) = t :: lexFrom .between rest)
    (hstep : ∀ stack, stepValue stack t = accept v stack) : Parses v s := by
  intro stack due rest hdue hrest
  rw [hlex rest hrest, parseFrom_cons, stepTree_of_takesValue hdue ht, hstep]

/-! ## Arrays -/

/-- What follows an element of an array ends a numeral. -/
private theorem endsNumeral_more {close : Char} (hc : Ends close)
    (texts : List (List Char)) (rest : List Glyph) :
    EndsNumeral (asGlyphs (texts.flatMap (',' :: ·)) ++ .char close :: rest) := by
  cases texts with
  | nil => exact endsNumeral_of_ends hc rest
  | cons s more => exact endsNumeral_of_ends (.inr (.inl rfl)) _

/-- An element with white space around it, wherever one is due. -/
private theorem parseFrom_item {p : ItemPart}
    (hs : Blank p.before ∧ Blank p.after) (hp : Parses p.tree p.text)
    (hdue : due.TakesValue) (hr : EndsNumeral rest)
    (done : List Tree) (stack : List Frame) :
    parseFrom (.array done :: stack) due
        (lexFrom .between (asGlyphs p.written ++ rest))
      = parseFrom (.array (p.tree :: done) :: stack) .afterItem
          (lexFrom .between rest) := by
  rw [ItemPart.written, asGlyphs_append, asGlyphs_append, List.append_assoc,
    List.append_assoc, lexFrom_blank hs.1]
  refine (hp _ due _ hdue (endsNumeral_blank hs.2 hr)).trans ?_
  rw [lexFrom_blank hs.2]
  rfl

private theorem parseFrom_moreItems (parts : List ItemPart)
    (hs : ∀ p ∈ parts, Blank p.before ∧ Blank p.after)
    (h : ∀ p ∈ parts, Parses p.tree p.text) (done : List Tree)
    (stack : List Frame) (rest : List Glyph) :
    parseFrom (.array done :: stack) .afterItem
        (lexFrom .between
          (asGlyphs ((parts.map (·.written)).flatMap (',' :: ·))
            ++ .char ']' :: rest))
      = resume (accept (.array (done.reverse ++ parts.map (·.tree)) .closed)
          stack) (lexFrom .between rest) := by
  induction parts generalizing done with
  | nil =>
      have hnone : done.reverse ++ ([] : List ItemPart).map (·.tree)
          = done.reverse := List.append_nil _
      rw [hnone]
      exact parseFrom_cons _ _ .closeArray _
  | cons p more ih =>
      obtain ⟨hspace, hspaces⟩ := List.forall_mem_cons.mp hs
      obtain ⟨hp, hmore⟩ := List.forall_mem_cons.mp h
      have hcomma : lexFrom .between
          (asGlyphs (((p :: more).map (·.written)).flatMap (',' :: ·))
            ++ .char ']' :: rest)
          = .comma :: lexFrom .between (asGlyphs p.written
            ++ (asGlyphs ((more.map (·.written)).flatMap (',' :: ·))
              ++ .char ']' :: rest)) := by
        rw [← List.append_assoc, ← asGlyphs_append]
        rfl
      rw [hcomma, parseFrom_cons]
      refine (parseFrom_item hspace hp (.inr (.inr rfl))
        (endsNumeral_more (.inr (.inr (.inl rfl))) _ rest) done stack).trans ?_
      rw [ih hspaces hmore, List.reverse_cons, List.append_assoc]
      rfl

private theorem parses_array {parts : List ItemPart} (hne : parts ≠ [])
    (hs : ∀ p ∈ parts, Blank p.before ∧ Blank p.after)
    (h : ∀ p ∈ parts, Parses p.tree p.text) :
    Parses (.array (parts.map (·.tree)) .closed)
      ('[' :: commaText (parts.map (·.written)) ++ [']']) := by
  intro stack due rest hdue hrest
  cases parts with
  | nil => exact absurd rfl hne
  | cons p more =>
      obtain ⟨hspace, hspaces⟩ := List.forall_mem_cons.mp hs
      obtain ⟨hp, hmore⟩ := List.forall_mem_cons.mp h
      have hopen : lexFrom .between (asGlyphs
          ('[' :: commaText ((p :: more).map (·.written)) ++ [']']) ++ rest)
          = .openArray :: lexFrom .between (asGlyphs p.written
            ++ (asGlyphs ((more.map (·.written)).flatMap (',' :: ·))
              ++ .char ']' :: rest)) := by
        rw [← List.append_assoc, ← asGlyphs_append, asGlyphs_append,
          List.append_assoc]
        rfl
      rw [hopen, parseFrom_cons, stepTree_of_takesValue hdue (by decide)]
      refine (parseFrom_item hspace hp (.inr (.inl rfl))
        (endsNumeral_more (.inr (.inr (.inl rfl))) _ rest) [] stack).trans ?_
      exact parseFrom_moreItems more hspaces hmore [p.tree] stack rest

private theorem parses_emptyArray (hw : Blank w) :
    Parses (.array [] .closed) ('[' :: w ++ [']']) := by
  intro stack due rest hdue hrest
  have hopen : lexFrom .between (asGlyphs ('[' :: w ++ [']']) ++ rest)
      = .openArray :: .closeArray :: lexFrom .between rest := by
    rw [asGlyphs_append, List.append_assoc]
    exact congrArg (Token.openArray :: ·) (lexFrom_blank hw _)
  rw [hopen, parseFrom_cons, stepTree_of_takesValue hdue (by decide)]
  exact parseFrom_cons _ _ .closeArray _

/-! ## Objects -/

/-- A member with white space around its parts, wherever a key is due. -/
private theorem parseFrom_member {p : MemberPart} (hs : p.Spaced)
    (hk : SpellsString p.key p.keyText) (hp : Parses p.tree p.text)
    (hdue : due = .firstKey ∨ due = .keyAfterComma) (hr : EndsNumeral rest)
    (done : List (StringLiteral × Tree)) (stack : List Frame) :
    parseFrom (.object done :: stack) due
        (lexFrom .between (asGlyphs p.written ++ rest))
      = parseFrom (.object ((p.key, p.tree) :: done) :: stack) .afterMember
          (lexFrom .between rest) := by
  have hkey : lexFrom .between (asGlyphs p.written ++ rest)
      = .string p.key :: .colon :: lexFrom .between (asGlyphs p.text
        ++ (asGlyphs p.after ++ rest)) := by
    have hwritten : asGlyphs p.written ++ rest
        = asGlyphs p.beforeKey ++ (asGlyphs p.keyText ++ (asGlyphs p.afterKey
          ++ .char ':' :: (asGlyphs p.before ++ (asGlyphs p.text
            ++ (asGlyphs p.after ++ rest))))) := by
      simp [MemberPart.written, asGlyphs]
    rw [hwritten, lexFrom_blank hs.beforeKey, lexFrom_string hk,
      lexFrom_blank hs.afterKey]
    exact congrArg (Token.string p.key :: Token.colon :: ·)
      (lexFrom_blank hs.before _)
  have hstep : stepTree (.object done :: stack) due (.string p.key)
      = .more (.member done p.key :: stack) .colon := by
    rcases hdue with rfl | rfl <;> rfl
  rw [hkey, parseFrom_cons, hstep]
  refine (hp (.member done p.key :: stack) .value _ (.inl rfl)
    (endsNumeral_blank hs.after hr)).trans ?_
  rw [lexFrom_blank hs.after]
  rfl

private theorem parseFrom_moreMembers (parts : List MemberPart)
    (hs : ∀ p ∈ parts, p.Spaced)
    (hk : ∀ p ∈ parts, SpellsString p.key p.keyText)
    (h : ∀ p ∈ parts, Parses p.tree p.text)
    (done : List (StringLiteral × Tree)) (stack : List Frame)
    (rest : List Glyph) :
    parseFrom (.object done :: stack) .afterMember
        (lexFrom .between
          (asGlyphs ((parts.map (·.written)).flatMap (',' :: ·))
            ++ .char '\x7d' :: rest))
      = resume (accept (.object
          (done.reverse ++ parts.map fun p => (p.key, p.tree)) .closed) stack)
          (lexFrom .between rest) := by
  induction parts generalizing done with
  | nil =>
      have hnone : done.reverse
          ++ ([] : List MemberPart).map (fun p => (p.key, p.tree))
          = done.reverse := List.append_nil _
      rw [hnone]
      exact parseFrom_cons _ _ .closeObject _
  | cons p more ih =>
      obtain ⟨hspace, hspaces⟩ := List.forall_mem_cons.mp hs
      obtain ⟨hkey, hkeys⟩ := List.forall_mem_cons.mp hk
      obtain ⟨hp, hmore⟩ := List.forall_mem_cons.mp h
      have hcomma : lexFrom .between
          (asGlyphs (((p :: more).map (·.written)).flatMap (',' :: ·))
            ++ .char '\x7d' :: rest)
          = .comma :: lexFrom .between (asGlyphs p.written
            ++ (asGlyphs ((more.map (·.written)).flatMap (',' :: ·))
              ++ .char '\x7d' :: rest)) := by
        rw [← List.append_assoc, ← asGlyphs_append]
        rfl
      rw [hcomma, parseFrom_cons]
      refine (parseFrom_member hspace hkey hp (.inr rfl)
        (endsNumeral_more (.inr (.inr (.inr rfl))) _ rest) done stack).trans ?_
      rw [ih hspaces hkeys hmore, List.reverse_cons, List.append_assoc]
      rfl

private theorem parses_object {parts : List MemberPart} (hne : parts ≠ [])
    (hs : ∀ p ∈ parts, p.Spaced)
    (hk : ∀ p ∈ parts, SpellsString p.key p.keyText)
    (h : ∀ p ∈ parts, Parses p.tree p.text) :
    Parses (.object (parts.map fun p => (p.key, p.tree)) .closed)
      ('\x7b' :: commaText (parts.map (·.written)) ++ ['\x7d']) := by
  intro stack due rest hdue hrest
  cases parts with
  | nil => exact absurd rfl hne
  | cons p more =>
      obtain ⟨hspace, hspaces⟩ := List.forall_mem_cons.mp hs
      obtain ⟨hkey, hkeys⟩ := List.forall_mem_cons.mp hk
      obtain ⟨hp, hmore⟩ := List.forall_mem_cons.mp h
      have hopen : lexFrom .between (asGlyphs
          ('\x7b' :: commaText ((p :: more).map (·.written)) ++ ['\x7d'])
            ++ rest)
          = .openObject :: lexFrom .between (asGlyphs p.written
            ++ (asGlyphs ((more.map (·.written)).flatMap (',' :: ·))
              ++ .char '\x7d' :: rest)) := by
        rw [← List.append_assoc, ← asGlyphs_append, asGlyphs_append,
          List.append_assoc]
        rfl
      rw [hopen, parseFrom_cons, stepTree_of_takesValue hdue (by decide)]
      refine (parseFrom_member hspace hkey hp (.inl rfl)
        (endsNumeral_more (.inr (.inr (.inr rfl))) _ rest) [] stack).trans ?_
      exact parseFrom_moreMembers more hspaces hkeys hmore [(p.key, p.tree)]
        stack rest

private theorem parses_emptyObject (hw : Blank w) :
    Parses (.object [] .closed) ('\x7b' :: w ++ ['\x7d']) := by
  intro stack due rest hdue hrest
  have hopen : lexFrom .between (asGlyphs ('\x7b' :: w ++ ['\x7d']) ++ rest)
      = .openObject :: .closeObject :: lexFrom .between rest := by
    rw [asGlyphs_append, List.append_assoc]
    exact congrArg (Token.openObject :: ·) (lexFrom_blank hw _)
  rw [hopen, parseFrom_cons, stepTree_of_takesValue hdue (by decide)]
  exact parseFrom_cons _ _ .closeObject _

/-! ## Values -/

/-- Wherever a value is due, its text is parsed into its tree. -/
theorem parses_of_spells {t : Tree} (h : Spells t s) : Parses t s := by
  induction h with
  | null =>
      exact parses_of_token (by decide) (fun _ _ => rfl) (fun _ => rfl)
  | true =>
      exact parses_of_token (t := .bool true) (by decide) (fun _ _ => rfl)
        (fun _ => rfl)
  | false =>
      exact parses_of_token (t := .bool false) (by decide) (fun _ _ => rfl)
        (fun _ => rfl)
  | @number l s h =>
      refine parses_of_token (t := .number l) (by simp) ?_ (fun _ => rfl)
      intro rest hrest
      exact lexFrom_numeral h hrest
  | @string l s h =>
      refine parses_of_token (t := .string l) (by simp) ?_ (fun _ => rfl)
      intro rest hrest
      exact lexFrom_string h rest
  | emptyArray hs => exact parses_emptyArray hs
  | array hne hs h ih => exact parses_array hne hs ih
  | emptyObject hs => exact parses_emptyObject hs
  | object hne hs hk h ih => exact parses_object hne hs hk ih

/-- A text is read as the tree that it spells, and nothing follows. -/
theorem read_of_isJson {t : Tree} (h : IsJson t s) :
    Document.read (asGlyphs s) = ⟨t, false⟩ := by
  obtain ⟨hb, h, ha⟩ := h
  rename_i before text after
  have hend : EndsNumeral (asGlyphs after ++ []) :=
    endsNumeral_blank ha (fun _ hg => nomatch hg)
  have hparse := parses_of_spells h [] .value _ (.inl rfl) hend
  rw [lexFrom_blank ha] at hparse
  change parseFrom [] .value
    (lexFrom .between (asGlyphs (before ++ text ++ after))) = _
  rw [asGlyphs_append, asGlyphs_append, List.append_assoc, lexFrom_blank hb]
  rw [List.append_nil] at hparse
  exact hparse

end RiskExchange.Json
