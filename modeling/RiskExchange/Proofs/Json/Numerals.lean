import Mathlib.Tactic.IntervalCases
import RiskExchange.Json.Token
import RiskExchange.Proofs.Number.Digits

/-! # Numerals — a spelled literal is lexed as it was spelled

    A literal that a numeral can spell (`WellSpelled`) may have its exponent
    written in several ways (`SpellsExponent`). However it is spelled, the
    machine reads the literal, provided that what follows does not go on with
    the numeral (`lexFrom_numeral`). `NumberLiteral.chars` writes a literal out
    in one of these ways (`spellsNumber_chars`). -/

namespace RiskExchange.Json

open RiskExchange.Number (AreDigits digitChars)
open RiskExchange.Text (Glyph)

/-- Characters as glyphs. -/
def asGlyphs (cs : List Char) : List Glyph := cs.map .char

theorem asGlyphs_append (as bs : List Char) :
    asGlyphs (as ++ bs) = asGlyphs as ++ asGlyphs bs := List.map_append

/-! ## Spelling -/

namespace NumberLiteral

/-- The sign of a literal. -/
def signChars (l : NumberLiteral) : List Char :=
  if l.negative then ['-'] else []

/-- The point and the digits behind it. -/
def fractionChars (l : NumberLiteral) : List Char :=
  match l.fraction with
  | none => []
  | some digits => '.' :: digitChars digits

/-- The exponent with its sign, which is always written. -/
def exponentChars (l : NumberLiteral) : List Char :=
  match l.exponent with
  | none => []
  | some (down, digits) =>
    'e' :: (if down then '-' else '+') :: digitChars digits

/-- The literal written out. -/
def chars (l : NumberLiteral) : List Char :=
  l.signChars ++ digitChars l.whole ++ l.fractionChars ++ l.exponentChars

/-- A literal that a numeral can spell: digits everywhere, and no zero in
    front of others. -/
structure WellSpelled (l : NumberLiteral) : Prop where
  digits : AreDigits l.whole
  front : l.whole = [0] ∨ ∃ d rest, l.whole = d :: rest ∧ d ≠ 0
  fraction : ∀ ds, l.fraction = some ds → ds ≠ [] ∧ AreDigits ds
  exponent : ∀ down ds, l.exponent = some (down, ds) →
    ds ≠ [] ∧ AreDigits ds

theorem wellSpelled_integer {negative : Bool} {ds : List Nat}
    (hds : AreDigits ds)
    (hfront : ds = [0] ∨ ∃ d rest, ds = d :: rest ∧ d ≠ 0) :
    WellSpelled ⟨negative, ds, none, none⟩ :=
  ⟨hds, hfront, fun _ h => (nomatch h), fun _ _ h => (nomatch h)⟩

end NumberLiteral

/-- The ways to spell an exponent: the mark is of either case, and a plus may be
    left out. -/
inductive SpellsExponent : Option (Bool × List Nat) → List Char → Prop where
  | none : SpellsExponent none []
  | plain {mark : Char} {ds : List Nat} (hm : mark = 'e' ∨ mark = 'E') :
      SpellsExponent (some (false, ds)) (mark :: digitChars ds)
  | signed {mark : Char} {down : Bool} {ds : List Nat}
      (hm : mark = 'e' ∨ mark = 'E') :
      SpellsExponent (some (down, ds))
        (mark :: (if down then '-' else '+') :: digitChars ds)

/-- The text is a numeral, and is read as the literal. -/
inductive SpellsNumber (l : NumberLiteral) : List Char → Prop where
  | intro {exponent : List Char} (h : l.WellSpelled)
      (he : SpellsExponent l.exponent exponent) :
      SpellsNumber l
        (l.signChars ++ digitChars l.whole ++ l.fractionChars ++ exponent)

/-- The exponent may be written with its sign always. -/
theorem spellsNumber_chars {l : NumberLiteral} (h : l.WellSpelled) :
    SpellsNumber l l.chars := by
  refine .intro h ?_
  rw [NumberLiteral.exponentChars]
  split
  · rename_i he
    rw [he]
    exact .none
  · rename_i down ds he
    rw [he]
    exact .signed (.inl rfl)

/-! ## Digits -/

variable {l n : NumberLiteral} {rest : List Glyph} {stage : Stage}
  {d : Nat} {ds : List Nat}

/-- A glyph that completes no token. -/
theorem lexFrom_step (mode : Mode) {next : Mode} {g : Glyph}
    (h : mode.step g = ([], some next)) :
    lexFrom mode (g :: rest) = lexFrom next rest := by
  rw [lexFrom, h]
  rfl

/-- A stage that takes digits takes all of them. -/
private theorem lexFrom_digits (make : List Nat → NumberLiteral)
    (hstep : ∀ as d, d < 10 →
      Mode.stepNumber stage (make as) (.char (Nat.digitChar d))
        = ([], some (.number stage (make (as ++ [d])))))
    (hds : AreDigits ds) (as : List Nat) :
    lexFrom (.number stage (make as)) (asGlyphs (digitChars ds) ++ rest)
      = lexFrom (.number stage (make (as ++ ds))) rest := by
  induction ds generalizing as with
  | nil => rw [List.append_nil]; rfl
  | cons d more ih =>
      have hd : d < 10 := hds d (List.mem_cons_self ..)
      have hmore : AreDigits more :=
        fun x hx => hds x (List.mem_cons_of_mem _ hx)
      refine (lexFrom_step (.number stage (make as)) (hstep as d hd)).trans ?_
      have happend : as ++ d :: more = (as ++ [d]) ++ more := by simp
      rw [happend]
      exact ih hmore (as ++ [d])

/-! ## The parts of a numeral -/

private theorem start_digit (hd : d < 10) (h0 : d ≠ 0) :
    Mode.step .between (.char (Nat.digitChar d))
      = ([], some (.number .whole ⟨false, [d], none, none⟩)) := by
  interval_cases d
  · exact absurd rfl h0
  all_goals rfl

private theorem stepNumber_sign (hd : d < 10) (h0 : d ≠ 0) :
    Mode.stepNumber .sign ⟨true, [], none, none⟩ (.char (Nat.digitChar d))
      = ([], some (.number .whole ⟨true, [d], none, none⟩)) := by
  interval_cases d
  · exact absurd rfl h0
  all_goals rfl

private theorem stepNumber_whole (negative : Bool) (as : List Nat)
    (hd : d < 10) :
    Mode.stepNumber .whole ⟨negative, as, none, none⟩
      (.char (Nat.digitChar d))
      = ([], some (.number .whole ⟨negative, as ++ [d], none, none⟩)) := by
  interval_cases d <;> rfl

private theorem stepNumber_fraction (hs : stage = .point ∨ stage = .fraction)
    (n : NumberLiteral) (hd : d < 10) :
    Mode.stepNumber stage n (.char (Nat.digitChar d))
      = ([], some (.number .fraction
        { n with fraction := some (n.fraction.getD [] ++ [d]) })) := by
  rcases hs with rfl | rfl
  · interval_cases d <;> rfl
  · interval_cases d <;> rfl

private theorem stepNumber_exponent
    (hs : stage = .exponentSign ∨ stage = .exponent) (n : NumberLiteral)
    {down : Bool} (hn : n.exponent = some (down, ds)) (hd : d < 10) :
    Mode.stepNumber stage n (.char (Nat.digitChar d))
      = ([], some (.number .exponent
        { n with exponent := some (down, ds ++ [d]) })) := by
  obtain ⟨negative, whole, fraction, exponent⟩ := n
  cases hn
  rcases hs with rfl | rfl
  · interval_cases d <;> rfl
  · interval_cases d <;> rfl

/-- The integer part of a numeral, with its sign. -/
private theorem lexFrom_front (h : l.WellSpelled) (rest : List Glyph) :
    ∃ stage, (stage = .zero ∨ stage = .whole) ∧
      lexFrom .between (asGlyphs (l.signChars ++ digitChars l.whole) ++ rest)
        = lexFrom (.number stage ⟨l.negative, l.whole, none, none⟩) rest := by
  rcases h.front with h0 | ⟨d, more, hw, hd⟩
  · refine ⟨.zero, .inl rfl, ?_⟩
    rw [NumberLiteral.signChars, h0]
    cases l.negative <;> rfl
  · -- the first digit is not a zero, and all others are taken after it
    refine ⟨.whole, .inr rfl, ?_⟩
    have hdigits := h.digits
    rw [hw] at hdigits
    have hten : d < 10 := hdigits d (List.mem_cons_self ..)
    have hmore : AreDigits more :=
      fun x hx => hdigits x (List.mem_cons_of_mem _ hx)
    have hrun (negative : Bool) :
        lexFrom (.number .whole ⟨negative, [d], none, none⟩)
            (asGlyphs (digitChars more) ++ rest)
          = lexFrom (.number .whole ⟨negative, d :: more, none, none⟩) rest :=
      lexFrom_digits (fun as => ⟨negative, as, none, none⟩)
        (fun as d hd => stepNumber_whole negative as hd) hmore [d]
    rw [NumberLiteral.signChars, hw]
    cases l.negative with
    | false =>
        exact (lexFrom_step .between (start_digit hten hd)).trans (hrun false)
    | true =>
        refine (lexFrom_step .between (g := .char '-') rfl).trans ?_
        refine (lexFrom_step (.number .sign ⟨true, [], none, none⟩)
          (stepNumber_sign hten hd)).trans (hrun true)

/-- The point and the digits behind it. -/
private theorem lexFrom_fraction (hs : stage = .zero ∨ stage = .whole)
    (hne : ds ≠ []) (hds : AreDigits ds) (n : NumberLiteral)
    (hn : n.fraction = none) :
    lexFrom (.number stage n) (asGlyphs ('.' :: digitChars ds) ++ rest)
      = lexFrom (.number .fraction { n with fraction := some ds }) rest := by
  have hpoint : Mode.stepNumber stage n (.char '.')
      = ([], some (.number .point n)) := by
    rcases hs with rfl | rfl <;> rfl
  cases ds with
  | nil => exact absurd rfl hne
  | cons d more =>
      have hd : d < 10 := hds d (List.mem_cons_self ..)
      have hmore : AreDigits more :=
        fun x hx => hds x (List.mem_cons_of_mem _ hx)
      have hfirst := stepNumber_fraction (.inl rfl) n hd
      rw [hn] at hfirst
      refine (lexFrom_step (.number stage n) hpoint).trans ?_
      refine (lexFrom_step (.number .point n) hfirst).trans ?_
      refine lexFrom_digits (fun as => { n with fraction := some as })
        ?_ hmore [d]
      intro as d hd
      exact stepNumber_fraction (.inr rfl) { n with fraction := some as } hd

private theorem stepNumber_mark (n : NumberLiteral) (hd : d < 10) :
    Mode.stepNumber .mark n (.char (Nat.digitChar d))
      = ([], some (.number .exponent
        { n with exponent := some (false, [d]) })) := by
  interval_cases d <;> rfl

/-- The digits of an exponent behind the first one. -/
private theorem lexFrom_exponentDigits (n : NumberLiteral) (down : Bool)
    (hds : AreDigits ds) (as : List Nat) :
    lexFrom (.number .exponent { n with exponent := some (down, as) })
        (asGlyphs (digitChars ds) ++ rest)
      = lexFrom (.number .exponent
          { n with exponent := some (down, as ++ ds) }) rest := by
  refine lexFrom_digits (fun as => { n with exponent := some (down, as) })
    ?_ hds as
  intro as d hd
  exact stepNumber_exponent (.inr rfl)
    { n with exponent := some (down, as) } rfl hd

/-- An exponent, however it is spelled. -/
private theorem lexFrom_exponent
    (hs : stage = .zero ∨ stage = .whole ∨ stage = .fraction) {down : Bool}
    {s : List Char} (he : SpellsExponent (some (down, ds)) s)
    (hne : ds ≠ []) (hds : AreDigits ds) (n : NumberLiteral) :
    lexFrom (.number stage n) (asGlyphs s ++ rest)
      = lexFrom (.number .exponent { n with exponent := some (down, ds) })
        rest := by
  have hmark {mark : Char} (hm : mark = 'e' ∨ mark = 'E') :
      Mode.stepNumber stage n (.char mark) = ([], some (.number .mark n)) := by
    rcases hm with rfl | rfl
    · rcases hs with rfl | rfl | rfl <;> rfl
    · rcases hs with rfl | rfl | rfl <;> rfl
  cases ds with
  | nil => exact absurd rfl hne
  | cons d more =>
      have hd : d < 10 := hds d (List.mem_cons_self ..)
      have hmore : AreDigits more :=
        fun x hx => hds x (List.mem_cons_of_mem _ hx)
      cases he with
      | plain hm =>
          refine (lexFrom_step (.number stage n) (hmark hm)).trans ?_
          refine (lexFrom_step (.number .mark n)
            (stepNumber_mark n hd)).trans ?_
          exact lexFrom_exponentDigits n false hmore [d]
      | signed hm =>
          have hsign :
              Mode.stepNumber .mark n (.char (if down then '-' else '+'))
                = ([], some (.number .exponentSign
                  { n with exponent := some (down, []) })) := by
            cases down <;> rfl
          refine (lexFrom_step (.number stage n) (hmark hm)).trans ?_
          refine (lexFrom_step (.number .mark n) hsign).trans ?_
          refine (lexFrom_step (.number .exponentSign
            { n with exponent := some (down, []) })
            (stepNumber_exponent (.inl rfl) _ rfl hd)).trans ?_
          exact lexFrom_exponentDigits n down hmore [d]

/-! ## The end of a numeral -/

/-- What follows does not go on with a numeral. -/
def EndsNumeral (rest : List Glyph) : Prop :=
  ∀ g, rest.head? = some g →
    digit? g = none ∧ g ≠ .char '.' ∧ isExponentMark g = false

/-- The glyph behind a numeral is taken as it would be at the start of a
    token. -/
theorem lexFrom_ended {mode : Mode} {g : Glyph}
    (h : mode.step g = Mode.ended n g) :
    lexFrom mode (g :: rest) = .number n :: lexFrom .between (g :: rest) := by
  have hstart : Mode.step .between g = Mode.start g := rfl
  rw [lexFrom, lexFrom, h, hstart, Mode.ended]
  obtain ⟨tokens, next⟩ := Mode.start g
  cases next with
  | none => rfl
  | some mode => rfl

private theorem lexFrom_end (hs : stage.complete = true)
    (hr : EndsNumeral rest) (n : NumberLiteral) :
    lexFrom (.number stage n) rest = .number n :: lexFrom .between rest := by
  cases rest with
  | nil =>
      rw [lexFrom, Mode.finish, if_pos hs]
      rfl
  | cons g more =>
      obtain ⟨hdigit, hpoint, hmark⟩ := hr g rfl
      have hstep : Mode.stepNumber stage n g = Mode.ended n g := by
        unfold Mode.stepNumber
        rw [hdigit]
        cases stage
        case zero | whole => simp [hpoint, hmark]
        case fraction => simp [hmark]
        case exponent => rfl
        all_goals exact nomatch hs
      exact lexFrom_ended hstep

/-! ## The whole numeral -/

/-- Everything up to the exponent. -/
private theorem lexFrom_places (h : l.WellSpelled) (rest : List Glyph) :
    ∃ stage, (stage = .zero ∨ stage = .whole ∨ stage = .fraction) ∧
      lexFrom .between (asGlyphs (l.signChars ++ digitChars l.whole)
          ++ (asGlyphs l.fractionChars ++ rest))
        = lexFrom (.number stage ⟨l.negative, l.whole, l.fraction, none⟩)
          rest := by
  obtain ⟨stage, hstage, hfront⟩ := lexFrom_front h
    (asGlyphs l.fractionChars ++ rest)
  rw [hfront, NumberLiteral.fractionChars]
  cases hf : l.fraction with
  | none =>
      refine ⟨stage, ?_, rfl⟩
      rcases hstage with h0 | h1
      · exact .inl h0
      · exact .inr (.inl h1)
  | some ds =>
      obtain ⟨hne, hds⟩ := h.fraction ds hf
      exact ⟨.fraction, .inr (.inr rfl),
        lexFrom_fraction hstage hne hds _ rfl⟩

/-- A literal is read from every numeral that spells it. -/
theorem lexFrom_numeral {s : List Char} (h : SpellsNumber l s)
    (hr : EndsNumeral rest) :
    lexFrom .between (asGlyphs s ++ rest)
      = .number l :: lexFrom .between rest := by
  obtain ⟨h, hspelled⟩ := h
  rename_i exponent
  rw [asGlyphs_append, asGlyphs_append, List.append_assoc, List.append_assoc]
  obtain ⟨stage, hstage, hplaces⟩ :=
    lexFrom_places h (asGlyphs exponent ++ rest)
  rw [hplaces]
  cases he : l.exponent with
  | none =>
      rw [he] at hspelled
      cases hspelled
      have hl : l = ⟨l.negative, l.whole, l.fraction, none⟩ := by rw [← he]
      have hcomplete : stage.complete = true := by
        rcases hstage with rfl | rfl | rfl <;> rfl
      rw [← hl]
      exact lexFrom_end hcomplete hr l
  | some e =>
      obtain ⟨down, ds⟩ := e
      obtain ⟨hne, hds⟩ := h.exponent down ds he
      have hl : l = ⟨l.negative, l.whole, l.fraction, some (down, ds)⟩ := by
        rw [← he]
      rw [he] at hspelled
      refine (lexFrom_exponent hstage hspelled hne hds _).trans ?_
      rw [hl]
      exact lexFrom_end (by rfl : Stage.exponent.complete = true) hr _

/-- Two literals are not written alike. -/
theorem NumberLiteral.chars_inj {m : NumberLiteral} (hl : l.WellSpelled)
    (hm : m.WellSpelled) (h : l.chars = m.chars) : l = m := by
  have hlex {n : NumberLiteral} (hn : n.WellSpelled) :
      lexFrom .between (asGlyphs n.chars ++ [])
        = .number n :: lexFrom .between [] :=
    lexFrom_numeral (spellsNumber_chars hn) (fun _ hg => nomatch hg)
  have hread := hlex hl
  rw [h, hlex hm] at hread
  cases (List.cons.inj hread).1
  rfl

end RiskExchange.Json
