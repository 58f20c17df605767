import RiskExchange.Proofs.Json.Parsing

/-! # Lexing — tokens spell the text that they are read from

    Inside a token, what has been read of it so far can be told from the mode
    of the machine (`Inside`), and each further character keeps this up or ends
    the token (`Inside.step`). A text is thus cut into the texts of its tokens,
    with white space between them, up to the first place where it goes wrong
    (`lexes`). -/

namespace RiskExchange.Json

open RiskExchange.Number (AreDigits digitChars digitOf_lt digitChar_digitOf)
open RiskExchange.Text (Glyph)

variable {s : List Char} {c : Char}

/-! ## Numerals -/

/-- A numeral up to its exponent. -/
def NumberLiteral.placeChars (l : NumberLiteral) : List Char :=
  l.signChars ++ digitChars l.whole ++ l.fractionChars

/-- What has been read of a numeral at a stage. -/
inductive Numeral : Stage → NumberLiteral → List Char → Prop where
  | sign : Numeral .sign ⟨true, [], none, none⟩ ['-']
  | zero {l : NumberLiteral} (h : l.WellSpelled) (hf : l.fraction = none)
      (he : l.exponent = none) : Numeral .zero l l.placeChars
  | whole {l : NumberLiteral} {d : Nat} {ds : List Nat} (h : l.WellSpelled)
      (hw : l.whole = d :: ds) (hd : d ≠ 0) (hf : l.fraction = none)
      (he : l.exponent = none) : Numeral .whole l l.placeChars
  | point {l : NumberLiteral} (h : l.WellSpelled) (hf : l.fraction = none)
      (he : l.exponent = none) : Numeral .point l (l.placeChars ++ ['.'])
  | fraction {l : NumberLiteral} {ds : List Nat} (h : l.WellSpelled)
      (hf : l.fraction = some ds) (he : l.exponent = none) :
      Numeral .fraction l l.placeChars
  | mark {l : NumberLiteral} {mark : Char} (h : l.WellSpelled)
      (he : l.exponent = none) (hm : mark = 'e' ∨ mark = 'E') :
      Numeral .mark l (l.placeChars ++ [mark])
  | exponentSign {l : NumberLiteral} {down : Bool} {mark : Char}
      (h : l.WellSpelled) (he : l.exponent = none)
      (hm : mark = 'e' ∨ mark = 'E') :
      Numeral .exponentSign { l with exponent := some (down, []) }
        (l.placeChars ++ [mark, if down then '-' else '+'])
  | exponent {l : NumberLiteral} {down : Bool} {ds : List Nat}
      {exponent : List Char} (h : l.WellSpelled) (he : l.exponent = none)
      (hne : ds ≠ []) (hds : AreDigits ds)
      (hs : SpellsExponent (some (down, ds)) exponent) :
      Numeral .exponent { l with exponent := some (down, ds) }
        (l.placeChars ++ exponent)

variable {stage : Stage} {n : NumberLiteral}

/-- A numeral that may end has been spelled. -/
theorem Numeral.spells (h : Numeral stage n s) (hc : stage.complete = true) :
    SpellsNumber n s := by
  have hbare {l : NumberLiteral} (h : l.WellSpelled) (he : l.exponent = none) :
      SpellsNumber l l.placeChars := by
    have hnone : SpellsExponent l.exponent [] := by
      rw [he]
      exact .none
    have hspells := SpellsNumber.intro h hnone
    rw [List.append_nil] at hspells
    exact hspells
  cases h with
  | zero h hf he => exact hbare h he
  | whole h hw hd hf he => exact hbare h he
  | fraction h hf he => exact hbare h he
  | exponent h he hne hds hs =>
      refine SpellsNumber.intro ?_ hs
      refine ⟨h.digits, h.front, h.fraction, ?_⟩
      rintro _ _ ⟨⟩
      exact ⟨hne, hds⟩
  | sign | point | mark | exponentSign => exact nomatch hc

/-- A character that is a digit is the one that is written for its value. -/
theorem digit?_eq_some {d : Nat} (h : digit? (.char c) = some d) :
    d < 10 ∧ c = Nat.digitChar d := by
  rw [digit?] at h
  split at h
  · rename_i hc
    cases h
    have hdigit : c.isDigit = true := by
      simp only [Char.isDigit, Bool.and_eq_true, decide_eq_true_eq]
      exact hc
    exact ⟨digitOf_lt hdigit, (digitChar_digitOf hdigit).symm⟩
  · exact nomatch h

theorem digitChars_concat (ds : List Nat) (d : Nat) :
    digitChars (ds ++ [d]) = digitChars ds ++ [Nat.digitChar d] :=
  List.map_append

theorem areDigits_singleton {d : Nat} (hd : d < 10) : AreDigits [d] :=
  fun _ h => List.mem_singleton.mp h ▸ hd

theorem areDigits_concat {ds : List Nat} {d : Nat} (hds : AreDigits ds)
    (hd : d < 10) : AreDigits (ds ++ [d]) :=
  hds.append (areDigits_singleton hd)

private theorem wellSpelled_whole {l : NumberLiteral}
    (hds : AreDigits l.whole)
    (hfront : l.whole = [0] ∨ ∃ d rest, l.whole = d :: rest ∧ d ≠ 0)
    (hf : l.fraction = none) (he : l.exponent = none) : l.WellSpelled where
  digits := hds
  front := hfront
  fraction := by simp [hf]
  exponent := by simp [he]

private theorem wellSpelled_fraction {l : NumberLiteral} {ds : List Nat}
    (h : l.WellSpelled) (he : l.exponent = none) (hne : ds ≠ [])
    (hds : AreDigits ds) : { l with fraction := some ds }.WellSpelled where
  digits := h.digits
  front := h.front
  fraction := by
    rintro _ ⟨⟩
    exact ⟨hne, hds⟩
  exponent := by simp [he]

/-- What a character makes of a numeral: it goes on, it goes wrong, or it has
    ended before. -/
inductive Numeral.Step (n : NumberLiteral) (s : List Char) (c : Char) :
    Mode.Step → Prop where
  | goes {stage : Stage} {m : NumberLiteral} (h : Numeral stage m (s ++ [c])) :
      Step n s c ([], some (.number stage m))
  | spoiled : Step n s c Mode.spoiled
  | ended (h : SpellsNumber n s) : Step n s c (Mode.ended n (.char c))

/-- A digit goes on with the numeral, except behind a zero in front. -/
private theorem Numeral.step_digit (h : Numeral stage n s) {d : Nat}
    (hd : d < 10) (hdigit : digit? (.char (Nat.digitChar d)) = some d) :
    Numeral.Step n s (Nat.digitChar d)
      (Mode.stepNumber stage n (.char (Nat.digitChar d))) := by
  unfold Mode.stepNumber
  rw [hdigit]
  cases h with
  | sign =>
      cases d with
      | zero =>
          refine .goes (.zero ?_ rfl rfl)
          exact wellSpelled_whole (areDigits_singleton hd) (.inl rfl) rfl rfl
      | succ d =>
          refine .goes (.whole ?_ rfl (Nat.succ_ne_zero d) rfl rfl)
          exact wellSpelled_whole (areDigits_singleton hd)
            (.inr ⟨_, _, rfl, Nat.succ_ne_zero d⟩) rfl rfl
  | zero h hf he => exact .spoiled
  | @whole _ e es h hw hne hf he =>
      have hw' : n.whole ++ [d] = e :: (es ++ [d]) := by
        rw [hw]
        rfl
      have hchars : n.placeChars ++ [Nat.digitChar d]
          = { n with whole := n.whole ++ [d] }.placeChars := by
        simp [NumberLiteral.placeChars, NumberLiteral.signChars,
          NumberLiteral.fractionChars, hf, digitChars_concat]
      refine .goes ?_
      rw [hchars]
      refine .whole ?_ hw' hne hf he
      exact wellSpelled_whole (areDigits_concat h.digits hd)
        (.inr ⟨_, _, hw', hne⟩) hf he
  | point h hf he =>
      have hchars : n.placeChars ++ ['.'] ++ [Nat.digitChar d]
          = { n with fraction := some (n.fraction.getD [] ++ [d]) }.placeChars := by
        simp [NumberLiteral.placeChars, NumberLiteral.signChars,
          NumberLiteral.fractionChars, hf, digitChars]
      refine .goes ?_
      rw [hchars]
      refine .fraction ?_ rfl he
      rw [hf]
      exact wellSpelled_fraction h he (List.cons_ne_nil d [])
        (areDigits_singleton hd)
  | @fraction _ ds h hf he =>
      have hchars : n.placeChars ++ [Nat.digitChar d]
          = { n with fraction := some (n.fraction.getD [] ++ [d]) }.placeChars := by
        simp [NumberLiteral.placeChars, NumberLiteral.signChars,
          NumberLiteral.fractionChars, hf, digitChars_concat]
      refine .goes ?_
      rw [hchars]
      refine .fraction ?_ rfl he
      rw [hf]
      exact wellSpelled_fraction h he (by simp)
        (areDigits_concat (h.fraction ds hf).2 hd)
  | mark h he hm =>
      refine .goes ?_
      rw [List.append_assoc]
      exact .exponent h he (List.cons_ne_nil d []) (areDigits_singleton hd)
        (.plain hm)
  | @exponentSign l down mark h he hm =>
      refine .goes ?_
      rw [List.append_assoc]
      exact .exponent (l := l) h he (List.cons_ne_nil d [])
        (areDigits_singleton hd) (.signed hm)
  | @exponent l down ds exponent h he hne hds hs =>
      refine .goes ?_
      rw [List.append_assoc]
      refine .exponent (l := l) h he (by simp) (areDigits_concat hds hd) ?_
      cases hs with
      | plain hm =>
          rw [List.cons_append, ← digitChars_concat]
          exact .plain hm
      | signed hm =>
          rw [List.cons_append, List.cons_append, ← digitChars_concat]
          exact .signed hm

/-- The integer part of a numeral may be followed by a point, by an exponent, or
    by nothing. -/
private theorem step_whole (h : n.WellSpelled) (hf : n.fraction = none)
    (he : n.exponent = none) (hspells : SpellsNumber n n.placeChars) :
    Numeral.Step n n.placeChars c
      (if Glyph.char c = .char '.' then ([], some (.number .point n))
      else if isExponentMark (.char c) then ([], some (.number .mark n))
      else Mode.ended n (.char c)) := by
  split
  · rename_i hpoint
    cases hpoint
    exact .goes (.point h hf he)
  · split
    · rename_i hmark
      exact .goes (.mark h he (by simpa [isExponentMark] using hmark))
    · exact .ended hspells

theorem Numeral.step (h : Numeral stage n s) (c : Char) :
    Numeral.Step n s c (Mode.stepNumber stage n (.char c)) := by
  cases hdigit : digit? (.char c) with
  | some d =>
      obtain ⟨hd, rfl⟩ := digit?_eq_some hdigit
      exact h.step_digit hd hdigit
  | none =>
      have hspells := h.spells
      unfold Mode.stepNumber
      rw [hdigit]
      cases h with
      | sign | point | exponentSign => exact .spoiled
      | zero h hf he => exact step_whole h hf he (hspells rfl)
      | whole h hw hne hf he => exact step_whole h hf he (hspells rfl)
      | fraction h hf he =>
          dsimp only
          split
          · rename_i hmark
            exact .goes (.mark h he (by simpa [isExponentMark] using hmark))
          · exact .ended (hspells rfl)
      | mark h he hm =>
          dsimp only
          split
          · rename_i hplus
            cases hplus
            refine .goes ?_
            rw [List.append_assoc]
            exact @Numeral.exponentSign n false _ h he hm
          · split
            · rename_i hminus
              cases hminus
              refine .goes ?_
              rw [List.append_assoc]
              exact @Numeral.exponentSign n true _ h he hm
            · exact .spoiled
      | exponent h he hne hds hs => exact .ended (hspells rfl)

/-! ## Strings -/

/-- The pieces, last first, of what has been read between the quotes. -/
def PiecesSpell (pieces : List Piece) (s : List Char) : Prop :=
  ∃ texts, List.Forall₂ SpellsPiece pieces.reverse texts ∧ s = texts.flatten

theorem PiecesSpell.cons {pieces : List Piece} {p : Piece} {t : List Char}
    (h : PiecesSpell pieces s) (hp : SpellsPiece p t) :
    PiecesSpell (p :: pieces) (s ++ t) := by
  obtain ⟨texts, htexts, rfl⟩ := h
  refine ⟨texts ++ [t], ?_, by simp⟩
  rw [List.reverse_cons]
  exact List.rel_append htexts (.cons hp .nil)

theorem PiecesSpell.spellsString {pieces : List Piece}
    (h : PiecesSpell pieces s) :
    SpellsString ⟨pieces.reverse, .closed⟩ ('"' :: s ++ ['"']) := by
  obtain ⟨texts, htexts, rfl⟩ := h
  exact .intro htexts

/-- Four digits make a `\u` escape. -/
theorem spellsPiece_digits {digits : List Char} {values : List Nat}
    (hd : List.Forall₂ (fun c v => hexDigit? (.char c) = some v) digits values)
    (hlen : digits.length = 4) :
    SpellsPiece (.unit (values.foldl (fun v d => v * 16 + d) 0))
      ('\\' :: 'u' :: digits) := by
  obtain ⟨a, b, c, d, rfl⟩ := List.length_eq_four.mp hlen
  rcases hd with _ | ⟨ha, _ | ⟨hb, _ | ⟨hc, _ | ⟨hd, ⟨⟩⟩⟩⟩⟩
  rw [List.foldl_cons, Nat.zero_mul, Nat.zero_add]
  exact .unit ha hb hc hd

/-! ## Tokens -/

/-- The text is a token. -/
inductive SpellsToken : Token → List Char → Prop where
  | openArray : SpellsToken .openArray ['[']
  | closeArray : SpellsToken .closeArray [']']
  | openObject : SpellsToken .openObject ['\x7b']
  | closeObject : SpellsToken .closeObject ['\x7d']
  | colon : SpellsToken .colon [':']
  | comma : SpellsToken .comma [',']
  | null : SpellsToken .null ['n', 'u', 'l', 'l']
  | true : SpellsToken (.bool true) ['t', 'r', 'u', 'e']
  | false : SpellsToken (.bool false) ['f', 'a', 'l', 's', 'e']
  | number {l : NumberLiteral} {s : List Char} (h : SpellsNumber l s) :
      SpellsToken (.number l) s
  | string {l : StringLiteral} {s : List Char} (h : SpellsString l s) :
      SpellsToken (.string l) s

/-- The token at which a text goes wrong. -/
inductive Faulty : Token → Prop where
  | broken (b : Break) : Faulty (.broken b)
  | other : Faulty .other
  | string {l : StringLiteral} (h : l.ending ≠ .closed) : Faulty (.string l)

/-- What has been read of a token when the machine is in a mode. -/
inductive Inside : Mode → List Char → Prop where
  | name {token : Token} {read due : List Char}
      (h : SpellsToken token (read ++ due)) (hne : due ≠ []) :
      Inside (.name token due) read
  | string {pieces : List Piece} {s : List Char} (h : PiecesSpell pieces s) :
      Inside (.string pieces) ('"' :: s)
  | escape {pieces : List Piece} {s : List Char} (h : PiecesSpell pieces s) :
      Inside (.escape pieces) ('"' :: s ++ ['\\'])
  | unit {pieces : List Piece} {s digits : List Char} {values : List Nat}
      (h : PiecesSpell pieces s) (hlen : digits.length < 4)
      (hd : List.Forall₂ (fun c v => hexDigit? (.char c) = some v) digits
        values) :
      Inside (.unit pieces digits.length
          (some (values.foldl (fun v d => v * 16 + d) 0)))
        ('"' :: s ++ '\\' :: 'u' :: digits)
  /-- Four bytes that are not all digits lead nowhere. -/
  | lost {pieces : List Piece} (octets : Nat) (read : List Char) :
      Inside (.unit pieces octets none) read
  | number {stage : Stage} {l : NumberLiteral} {s : List Char}
      (h : Numeral stage l s) : Inside (.number stage l) s

/-- What a character makes of what has been read of a token. -/
inductive Inside.Step (s : List Char) (c : Char) : Mode.Step → Prop where
  | goes {mode : Mode} (h : Inside mode (s ++ [c])) : Step s c ([], some mode)
  | completes {t : Token} (h : SpellsToken t (s ++ [c])) :
      Step s c ([t], some .between)
  | ended {n : NumberLiteral} (h : SpellsNumber n s) :
      Step s c (Mode.ended n (.char c))
  | faults {t : Token} (h : Faulty t) : Step s c ([t], none)

variable {pieces : List Piece} {mode : Mode} {token : Token}
  {read due : List Char}

private theorem step_name (h : SpellsToken token (read ++ due))
    (hne : due ≠ []) :
    Inside.Step read c (Mode.stepName token due (.char c)) := by
  cases due with
  | nil => exact absurd rfl hne
  | cons d more =>
      cases more with
      | nil =>
          rw [Mode.stepName]
          split
          · rename_i hc
            cases hc
            exact .completes h
          · exact .faults (.broken _)
      | cons e more =>
          rw [Mode.stepName]
          · split
            · rename_i hc
              cases hc
              refine .goes (.name ?_ (List.cons_ne_nil e more))
              rw [List.append_assoc]
              exact h
            · exact .faults (.broken _)
          · exact fun heq => nomatch heq

private theorem step_string (h : PiecesSpell pieces s) :
    Inside.Step ('"' :: s) c (Mode.stepString pieces (.char c)) := by
  rw [Mode.stepString]
  split
  · rename_i hc
    subst hc
    exact .completes (.string h.spellsString)
  · rename_i hquote
    split
    · rename_i hc
      subst hc
      exact .goes (.escape h)
    · rename_i hback
      split
      · exact .faults (.string (by simp))
      · rename_i hcontrol
        exact .goes (.string (h.cons
          (.plain hquote hback (Nat.not_lt.mp hcontrol))))

private theorem step_escape (h : PiecesSpell pieces s) :
    Inside.Step ('"' :: s ++ ['\\']) c (Mode.stepEscape pieces (.char c)) := by
  rw [Mode.stepEscape]
  split
  · rename_i hc
    subst hc
    refine .goes ?_
    rw [List.append_assoc]
    exact .unit h (by decide) .nil
  · split
    · rename_i e he
      refine .goes ?_
      rw [List.append_assoc]
      exact .string (h.cons (.short he))
    · exact .faults (.string (by simp))

private theorem step_lost (octets : Nat) :
    Inside.Step s c (Mode.stepUnit pieces octets none (.char c)) := by
  rw [Mode.stepUnit]
  split
  · exact .goes (.lost _ _)
  · exact .faults (.string (by simp))

private theorem step_unit {digits : List Char} {values : List Nat}
    (h : PiecesSpell pieces s) (hlen : digits.length < 4)
    (hd : List.Forall₂ (fun c v => hexDigit? (.char c) = some v) digits
      values) :
    Inside.Step ('"' :: s ++ '\\' :: 'u' :: digits) c
      (Mode.stepUnit pieces digits.length
        (some (values.foldl (fun v d => v * 16 + d) 0)) (.char c)) := by
  cases hc : hexDigit? (.char c) with
  | none =>
      have hlost : Mode.stepUnit pieces digits.length
          (some (values.foldl (fun v d => v * 16 + d) 0)) (.char c)
          = Mode.stepUnit pieces digits.length none (.char c) := by
        simp [Mode.stepUnit, hc]
      rw [hlost]
      exact step_lost _
  | some v =>
      have hstep : Mode.stepUnit pieces digits.length
          (some (values.foldl (fun v d => v * 16 + d) 0)) (.char c)
          = if digits.length + 1 < 4 then
              ([], some (.unit pieces (digits ++ [c]).length
                (some ((values ++ [v]).foldl (fun v d => v * 16 + d) 0))))
            else ([], some (.string (.unit
              ((values ++ [v]).foldl (fun v d => v * 16 + d) 0) :: pieces))) := by
        simp [Mode.stepUnit, hc, octets_of_hexDigit hc]
      have hdigits : List.Forall₂
          (fun c v => hexDigit? (.char c) = some v) (digits ++ [c])
          (values ++ [v]) := List.rel_append hd (.cons hc .nil)
      rw [hstep]
      split
      · rename_i hlt
        refine .goes ?_
        rw [List.append_assoc]
        exact .unit h (by simpa using hlt) hdigits
      · rename_i hge
        have hfour : (digits ++ [c]).length = 4 := by
          rw [List.length_append, List.length_singleton]
          omega
        refine .goes ?_
        rw [List.append_assoc, List.cons_append]
        exact .string (h.cons (spellsPiece_digits hdigits hfour))

/-- Inside a token every character goes on with it or ends it. -/
theorem Inside.step (h : Inside mode s) (c : Char) :
    Inside.Step s c (mode.step (.char c)) := by
  cases h with
  | name h hne => exact step_name h hne
  | string h => exact step_string h
  | escape h => exact step_escape h
  | unit h hlen hd => exact step_unit h hlen hd
  | lost octets => exact step_lost octets
  | number h =>
      have hstep := h.step c
      rw [Mode.step]
      generalize Mode.stepNumber _ _ (.char c) = next at hstep ⊢
      cases hstep with
      | goes h => exact .goes (.number h)
      | spoiled => exact .faults (.broken _)
      | ended h => exact .ended h

/-! ## Texts -/

/-- What the rest of a text makes of what has been read of a token: it goes
    wrong, or some more of it completes the token. -/
inductive Inside.Run (s : List Char) : List Char → List Token → Prop where
  | fault {t : Token} (h : Faulty t) (cs : List Char) : Run s cs [t]
  | token {t : Token} {read : List Char} (h : SpellsToken t (s ++ read))
      (rest : List Char) :
      Run s (read ++ rest) (t :: lexFrom .between (asGlyphs rest))

private theorem run_of_end (h : Inside mode s) :
    Inside.Run s [] (lexFrom mode []) := by
  cases h with
  | name h hne => exact .fault (.broken _) []
  | string h | escape h | unit h hlen hd | lost octets =>
      exact .fault (.string (by simp)) []
  | @number stage l s h =>
      rw [lexFrom, Mode.finish]
      split
      · rename_i hcomplete
        have hspells : SpellsToken (.number l) (s ++ []) := by
          rw [List.append_nil]
          exact .number (h.spells hcomplete)
        exact .token hspells []
      · exact .fault (.broken _) []

theorem Inside.run (h : Inside mode s) (cs : List Char) :
    Inside.Run s cs (lexFrom mode (asGlyphs cs)) := by
  induction cs generalizing mode s with
  | nil => exact run_of_end h
  | cons c rest ih =>
      have hstep := h.step c
      change Inside.Run s (c :: rest) (lexFrom mode (.char c :: asGlyphs rest))
      generalize hnext : mode.step (.char c) = next at hstep
      cases hstep with
      | @goes next h =>
          rw [lexFrom_step mode hnext]
          have hrun := ih h
          generalize lexFrom next (asGlyphs rest) = tokens at hrun ⊢
          cases hrun with
          | fault h => exact .fault h _
          | @token t read h rest =>
              rw [List.append_assoc] at h
              exact .token h rest
      | @completes t h =>
          rw [lexFrom, hnext]
          exact .token h rest
      | @ended n hn =>
          rw [lexFrom_ended hnext]
          have hspells : SpellsToken (.number n) (s ++ []) := by
            rw [List.append_nil]
            exact .number hn
          exact .token hspells (c :: rest)
      | faults h =>
          rw [lexFrom, hnext]
          exact .fault h _

/-- What a character makes where a token may begin: it opens one, it is one, or
    the text goes wrong there. -/
inductive Opens (c : Char) : Mode.Step → Prop where
  | opens {mode : Mode} (h : Inside mode [c]) : Opens c ([], some mode)
  | whole {t : Token} (h : SpellsToken t [c]) : Opens c ([t], some .between)
  | fails : Opens c ([.other], none)

private theorem opens_start (hc : isSpace c = false) :
    Opens c (Mode.start (.char c)) := by
  unfold Mode.start
  simp only [hc, Bool.false_eq_true, if_false]
  split
  · exact .whole .openArray
  · exact .whole .closeArray
  · exact .whole .openObject
  · exact .whole .closeObject
  · exact .whole .colon
  · exact .whole .comma
  · exact .opens (.string ⟨[], .nil, rfl⟩)
  · exact .opens (.name .null (List.cons_ne_nil _ _))
  · exact .opens (.name .true (List.cons_ne_nil _ _))
  · exact .opens (.name .false (List.cons_ne_nil _ _))
  · exact .opens (.number .sign)
  · cases hdigit : digit? (.char c) with
    | none => exact .fails
    | some d =>
        obtain ⟨hd, rfl⟩ := digit?_eq_some hdigit
        have hds := areDigits_singleton hd
        cases d with
        | zero =>
            refine .opens (.number (.zero ?_ rfl rfl))
            exact wellSpelled_whole hds (.inl rfl) rfl rfl
        | succ d =>
            have hne := Nat.succ_ne_zero d
            refine .opens (.number (.whole ?_ rfl hne rfl rfl))
            exact wellSpelled_whole hds (.inr ⟨_, _, rfl, hne⟩) rfl rfl

/-- A text is cut into tokens with white space between them, up to the first
    that goes wrong. -/
inductive Lexes : List Char → List Token → Prop where
  | blank {space : List Char} (h : Blank space) : Lexes space []
  | fault {t : Token} (h : Faulty t) (s : List Char) : Lexes s [t]
  | token {t : Token} {space text rest : List Char} {tokens : List Token}
      (hs : Blank space) (ht : SpellsToken t text) (hr : Lexes rest tokens) :
      Lexes (space ++ text ++ rest) (t :: tokens)

private theorem Lexes.space {tokens : List Token} (h : Lexes s tokens)
    (hc : isSpace c = true) : Lexes (c :: s) tokens := by
  cases h with
  | blank h => exact .blank (List.forall_mem_cons.mpr ⟨hc, h⟩)
  | fault h => exact .fault h _
  | @token t space text rest tokens hs ht hr =>
      exact .token (List.forall_mem_cons.mpr ⟨hc, hs⟩) ht hr

/-- Every text is cut into the tokens that are read from it. -/
theorem lexes (cs : List Char) : Lexes cs (lexFrom .between (asGlyphs cs)) := by
  -- on the length, as a whole token is taken off at a time
  induction hlen : cs.length using Nat.strong_induction_on generalizing cs with
  | h k ih =>
      subst hlen
      cases cs with
      | nil => exact .blank fun _ h => nomatch h
      | cons c rest =>
          have hblank : Blank [] := fun _ h => nomatch h
          change Lexes _ (lexFrom .between (.char c :: asGlyphs rest))
          cases hc : isSpace c with
          | true =>
              have hstep : Mode.step .between (.char c) = ([], some .between) := by
                simp [Mode.step, Mode.start, hc]
              rw [lexFrom_step .between hstep]
              exact (ih rest.length (Nat.lt_succ_self _) rest rfl).space hc
          | false =>
              have hopens := opens_start hc
              change Opens c (Mode.step .between (.char c)) at hopens
              generalize hnext : Mode.step .between (.char c) = next at hopens
              cases hopens with
              | @opens mode h =>
                  rw [lexFrom_step .between hnext]
                  have hrun := h.run rest
                  generalize lexFrom mode (asGlyphs rest) = tokens at hrun ⊢
                  cases hrun with
                  | fault h => exact .fault h _
                  | @token t read h rest =>
                      have hlt : rest.length < (c :: (read ++ rest)).length := by
                        rw [List.length_cons, List.length_append]
                        omega
                      exact .token hblank h (ih _ hlt rest rfl)
              | whole h =>
                  rw [lexFrom, hnext]
                  exact .token hblank h
                    (ih rest.length (Nat.lt_succ_self _) rest rfl)
              | fails =>
                  rw [lexFrom, hnext]
                  exact .fault .other _

end RiskExchange.Json
