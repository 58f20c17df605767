import RiskExchange.Proofs.Number.Digits
import RiskExchange.Text.Blank

/-! # Literals — which texts are read as a decimal

    A literal is a sign, digits with a point and an exponent (`Spells`); all of
    them may be left out but one digit. The reader gives a decimal for the
    texts that spell it and for no others (`read?_eq_finite_iff`): a word that
    names an infinity begins with a letter, and a literal does not. -/

namespace RiskExchange.Number.Numeral

/-! ## The grammar -/

/-- A sign, which may be left out; `true` for minus. -/
inductive SpellsSign : Bool → List Char → Prop where
  | none : SpellsSign false []
  | plus : SpellsSign false ['+']
  | minus : SpellsSign true ['-']

/-- Digits before and behind a point; without any behind it, the point may be
    left out. -/
inductive SpellsDigits : List Nat → List Nat → List Char → Prop where
  | whole (ds : List Nat) : SpellsDigits ds [] (digitChars ds)
  | pointed (ds fs : List Nat) :
      SpellsDigits ds fs (digitChars ds ++ '.' :: digitChars fs)

/-- An exponent, which may be left out. -/
inductive SpellsExponent : Int → List Char → Prop where
  | none : SpellsExponent 0 []
  | marked {mark : Char} {negative : Bool} {sign : List Char} {ds : List Nat}
      (hmark : mark = 'e' ∨ mark = 'E') (hsign : SpellsSign negative sign)
      (hds : AreDigits ds) (hne : ds ≠ []) :
      SpellsExponent
        (if negative then -(digitsValue 0 ds : Int) else digitsValue 0 ds)
        (mark :: (sign ++ digitChars ds))

/-- The part of a literal behind its sign, which has one digit at least. -/
inductive SpellsUnsigned (negative : Bool) : Decimal → List Char → Prop where
  | intro {digits exponent : List Char} {whole fraction : List Nat} {e : Int}
      (hwhole : AreDigits whole) (hfraction : AreDigits fraction)
      (hne : whole ++ fraction ≠ [])
      (hdigits : SpellsDigits whole fraction digits)
      (hexponent : SpellsExponent e exponent) :
      SpellsUnsigned negative ⟨negative, digitsValue 0 (whole ++ fraction),
        e - fraction.length⟩ (digits ++ exponent)

/-- The text is a literal, and denotes the decimal. -/
inductive Spells : Decimal → List Char → Prop where
  | intro {negative : Bool} {sign rest : List Char} {x : Decimal}
      (hsign : SpellsSign negative sign)
      (hrest : SpellsUnsigned negative x rest) : Spells x (sign ++ rest)

/-! ## Digits -/

/-- The text does not go on with a digit. -/
def NoDigit (s : List Char) : Prop :=
  ∀ c rest, s = c :: rest → Text.digit? c = none

theorem noDigit_nil : NoDigit [] := fun _ _ h => nomatch h

theorem noDigit_cons {c : Char} {rest : List Char}
    (h : Text.digit? c = none) : NoDigit (c :: rest) := by
  rintro c rest ⟨⟩
  exact h

theorem takeDigits_digitChars {ds : List Nat} {rest : List Char}
    (hds : AreDigits ds) (hrest : NoDigit rest) :
    takeDigits (digitChars ds ++ rest) = (ds, rest) := by
  induction ds with
  | nil =>
      cases rest with
      | nil => rfl
      | cons c rest =>
          change takeDigits (c :: rest) = _
          rw [takeDigits, hrest c rest rfl]
  | cons d ds ih =>
      change takeDigits (Nat.digitChar d :: (digitChars ds ++ rest)) = _
      rw [takeDigits, digit?_digitChar (hds d (List.mem_cons_self ..)),
        ih hds.tail]

theorem takeDigits_spec (s : List Char) :
    AreDigits (takeDigits s).1 ∧
      s = digitChars (takeDigits s).1 ++ (takeDigits s).2 := by
  induction s with
  | nil => exact ⟨areDigits_nil, rfl⟩
  | cons c rest ih =>
      rw [takeDigits]
      cases hc : Text.digit? c with
      | none => exact ⟨areDigits_nil, rfl⟩
      | some d =>
          obtain ⟨hd, rfl⟩ := digit?_eq_some hc
          obtain ⟨hds, hrest⟩ := ih
          exact ⟨hds.cons hd, congrArg (Nat.digitChar d :: ·) hrest⟩

/-! ## Signs -/

/-- The text does not begin with a sign. -/
def NoSign (s : List Char) : Prop :=
  ∀ c rest, s = c :: rest → c ≠ '-' ∧ c ≠ '+'

theorem takeSign_append {negative : Bool} {sign rest : List Char}
    (h : SpellsSign negative sign) (hrest : NoSign rest) :
    takeSign (sign ++ rest) = (negative, rest) := by
  cases h with
  | none =>
      rw [List.nil_append]
      unfold takeSign
      split
      · exact absurd rfl (hrest _ _ rfl).1
      · exact absurd rfl (hrest _ _ rfl).2
      · rfl
  | plus => rfl
  | minus => rfl

theorem takeSign_spec (s : List Char) : ∃ sign,
    SpellsSign (takeSign s).1 sign ∧ s = sign ++ (takeSign s).2 := by
  unfold takeSign
  split
  · exact ⟨['-'], .minus, rfl⟩
  · exact ⟨['+'], .plus, rfl⟩
  · exact ⟨[], .none, rfl⟩

/-- A digit is neither a sign nor a letter that begins a name. -/
private theorem digitChar_ne {d : Nat} (h : d < 10) :
    (Nat.digitChar d ≠ '-' ∧ Nat.digitChar d ≠ '+') ∧
      (Nat.digitChar d).toLower ≠ 'i' ∧ (Nat.digitChar d).toLower ≠ 'n' := by
  have hall : ∀ d < 10,
      (Nat.digitChar d ≠ '-' ∧ Nat.digitChar d ≠ '+') ∧
        (Nat.digitChar d).toLower ≠ 'i' ∧
        (Nat.digitChar d).toLower ≠ 'n' := by
    decide
  exact hall d h

theorem noSign_digitChars {ds : List Nat} (hds : AreDigits ds) :
    NoSign (digitChars ds) := by
  intro c rest h
  cases ds with
  | nil => exact nomatch h
  | cons d ds =>
      cases h
      exact (digitChar_ne (hds d (List.mem_cons_self ..))).1

/-! ## Exponents -/

theorem noDigit_of_spellsExponent {e : Int} {s : List Char}
    (h : SpellsExponent e s) : NoDigit s := by
  cases h with
  | none => exact noDigit_nil
  | marked hmark hsign hds hne =>
      refine noDigit_cons ?_
      rcases hmark with rfl | rfl <;> decide

private theorem readExponent_of_spells {s : List Char} {e : Int}
    (h : SpellsExponent e s) : readExponent s = some e := by
  cases h with
  | none => rfl
  | marked hmark hsign hds hne =>
      have hdigits := takeDigits_digitChars hds noDigit_nil
      rw [List.append_nil] at hdigits
      rw [readExponent, if_pos hmark,
        takeSign_append hsign (noSign_digitChars hds)]
      dsimp only
      rw [hdigits, List.isEmpty_eq_false_iff.mpr hne]
      rfl

private theorem spells_of_readExponent {s : List Char} {e : Int}
    (h : readExponent s = some e) : SpellsExponent e s := by
  cases s with
  | nil =>
      cases h
      exact .none
  | cons c rest =>
      rw [readExponent] at h
      split at h
      next hmark =>
        obtain ⟨sign, hsign, hrest⟩ := takeSign_spec rest
        obtain ⟨hds, hafter⟩ := takeDigits_spec (takeSign rest).2
        dsimp only at h
        split at h
        next => cases h
        next hall =>
          obtain ⟨hne, hend⟩ : (takeDigits (takeSign rest).2).1 ≠ [] ∧
              (takeDigits (takeSign rest).2).2 = [] := by
            simpa using hall
          cases h
          rw [hend, List.append_nil] at hafter
          have hmarked := SpellsExponent.marked hmark hsign hds hne
          rw [← hafter, ← hrest] at hmarked
          exact hmarked
      next => cases h

theorem readExponent_eq_some_iff {s : List Char} {e : Int} :
    readExponent s = some e ↔ SpellsExponent e s :=
  ⟨spells_of_readExponent, readExponent_of_spells⟩

/-! ## Digits with a point -/

section

variable {negative : Bool} {whole fraction : List Nat} {e : Int}
  {digits exponent s : List Char} {x : Decimal}

theorem takeFraction_of_spellsExponent (h : SpellsExponent e exponent) :
    takeFraction exponent = ([], exponent) := by
  cases h with
  | none => rfl
  | marked hmark hsign hds hne =>
      rcases hmark with rfl | rfl <;> rfl

theorem take_append (hwhole : AreDigits whole) (hfraction : AreDigits fraction)
    (hdigits : SpellsDigits whole fraction digits)
    (hexponent : SpellsExponent e exponent) :
    ∃ rest, takeDigits (digits ++ exponent) = (whole, rest) ∧
      takeFraction rest = (fraction, exponent) := by
  have hend := noDigit_of_spellsExponent hexponent
  cases hdigits with
  | whole =>
      exact ⟨exponent, takeDigits_digitChars hwhole hend,
        takeFraction_of_spellsExponent hexponent⟩
  | pointed =>
      refine ⟨'.' :: (digitChars fraction ++ exponent), ?_,
        takeDigits_digitChars hfraction hend⟩
      rw [List.append_assoc]
      exact takeDigits_digitChars hwhole (noDigit_cons (by decide))

theorem take_spec (s : List Char) :
    AreDigits (takeDigits s).1 ∧
      AreDigits (takeFraction (takeDigits s).2).1 ∧
      ∃ digits, SpellsDigits (takeDigits s).1
          (takeFraction (takeDigits s).2).1 digits ∧
        s = digits ++ (takeFraction (takeDigits s).2).2 := by
  obtain ⟨hwhole, hs⟩ := takeDigits_spec s
  refine ⟨hwhole, ?_⟩
  generalize (takeDigits s).1 = whole at hwhole hs ⊢
  generalize (takeDigits s).2 = rest at hs ⊢
  rw [hs]
  unfold takeFraction
  split
  next behind =>
    obtain ⟨hfraction, hbehind⟩ := takeDigits_spec behind
    refine ⟨hfraction, _, .pointed whole _, ?_⟩
    rw [List.append_assoc, List.cons_append, ← hbehind]
  next => exact ⟨areDigits_nil, _, .whole whole, rfl⟩

/-- What the unsigned part of a literal begins with. -/
def IsFront (c : Char) : Prop := c = '.' ∨ ∃ d < 10, c = Nat.digitChar d

theorem exists_front (hwhole : AreDigits whole)
    (hne : whole ++ fraction ≠ [])
    (hdigits : SpellsDigits whole fraction digits) :
    ∃ c rest, digits = c :: rest ∧ IsFront c := by
  cases whole with
  | nil =>
      cases hdigits with
      | whole => exact absurd rfl hne
      | pointed => exact ⟨'.', _, rfl, .inl rfl⟩
  | cons d whole =>
      have hd := hwhole d (List.mem_cons_self ..)
      cases hdigits with
      | whole => exact ⟨_, _, rfl, .inr ⟨d, hd, rfl⟩⟩
      | pointed => exact ⟨_, _, rfl, .inr ⟨d, hd, rfl⟩⟩

theorem IsFront.ne {c : Char} (h : IsFront c) :
    (c ≠ '-' ∧ c ≠ '+') ∧ c.toLower ≠ 'i' ∧ c.toLower ≠ 'n' := by
  rcases h with rfl | ⟨d, hd, rfl⟩
  · decide
  · exact digitChar_ne hd

theorem readUnsigned_eq_some_iff :
    readUnsigned negative s = some x ↔ SpellsUnsigned negative x s := by
  constructor
  · intro h
    obtain ⟨hwhole, hfraction, digits, hdigits, hs⟩ := take_spec s
    rw [readUnsigned] at h
    dsimp only at h
    split at h
    next => exact nomatch h
    next hsome =>
      obtain ⟨e, he, rfl⟩ := Option.map_eq_some_iff.mp h
      have hne : (takeDigits s).1 ++ (takeFraction (takeDigits s).2).1
          ≠ [] := by
        simpa using hsome
      have hspells : SpellsUnsigned negative _ _ :=
        .intro hwhole hfraction hne hdigits (readExponent_eq_some_iff.mp he)
      rw [← hs] at hspells
      exact hspells
  · rintro ⟨hwhole, hfraction, hne, hdigits, hexponent⟩
    obtain ⟨rest, htake, hpoint⟩ :=
      take_append hwhole hfraction hdigits hexponent
    rw [readUnsigned, htake]
    dsimp only
    rw [hpoint]
    dsimp only
    rw [if_neg (by simpa using hne), readExponent_eq_some_iff.mpr hexponent]
    rfl

/-! ## Literals -/

theorem SpellsUnsigned.front (h : SpellsUnsigned negative x s) :
    ∃ c rest, s = c :: rest ∧ IsFront c := by
  obtain ⟨hwhole, hfraction, hne, hdigits, hexponent⟩ := h
  obtain ⟨c, rest, rfl, hc⟩ := exists_front hwhole hne hdigits
  exact ⟨c, _, rfl, hc⟩

/-- A text that begins like a literal names nothing. -/
theorem IsFront.not_name {c d : Char} (hc : IsFront c)
    (hd : d = 'i' ∨ d = 'n') (rest more : List Char) :
    String.ofList ((c :: rest).map Char.toLower) ≠ String.ofList (d :: more) := by
  intro h
  rw [String.ofList_inj] at h
  have hhead : c.toLower = d := (List.cons.inj h).1
  rcases hd with rfl | rfl
  · exact hc.ne.2.1 hhead
  · exact hc.ne.2.2 hhead

/-- A text is read as a decimal if and only if it is a literal that denotes
    it. -/
theorem read?_eq_finite_iff : read? s = some (.finite x) ↔ Spells x s := by
  constructor
  · intro h
    obtain ⟨sign, hsign, hs⟩ := takeSign_spec s
    rw [read?] at h
    dsimp only at h
    split at h
    next => exact nomatch h
    next =>
      split at h
      next => exact nomatch h
      next =>
        obtain ⟨y, hy, hxy⟩ := Option.map_eq_some_iff.mp h
        cases hxy
        have hspells := Spells.intro hsign (readUnsigned_eq_some_iff.mp hy)
        rw [← hs] at hspells
        exact hspells
  · rintro ⟨hsign, hrest⟩
    obtain ⟨c, rest, rfl, hc⟩ := hrest.front
    have hnosign : NoSign (c :: rest) := by
      rintro c rest ⟨⟩
      exact hc.ne.1
    rw [read?, takeSign_append hsign hnosign]
    dsimp only
    rw [if_neg, if_neg, readUnsigned_eq_some_iff.mpr hrest]
    · rfl
    · exact hc.not_name (.inr rfl) rest ['a', 'n']
    · rintro (h | h)
      · exact hc.not_name (.inl rfl) rest ['n', 'f'] h
      · exact hc.not_name (.inl rfl) rest
          ['n', 'f', 'i', 'n', 'i', 't', 'y'] h

/-- A literal denotes one decimal. -/
theorem Spells.unique {y : Decimal} (hx : Spells x s) (hy : Spells y s) :
    x = y := by
  have h := (read?_eq_finite_iff.mpr hx).symm.trans
    (read?_eq_finite_iff.mpr hy)
  cases h
  rfl

/-- A text has a finite value if and only if it is a literal whose decimal is
    read as that value. -/
theorem finite?_eq_some_iff {y : Binary64} :
    finite? s = some y ↔ ∃ x, Spells x s ∧ x.toBinary64 = some y := by
  rw [finite?]
  constructor
  · intro h
    split at h
    next x hx => exact ⟨x, read?_eq_finite_iff.mp hx, h⟩
    next => exact nomatch h
  · rintro ⟨x, hx, hy⟩
    rw [read?_eq_finite_iff.mpr hx]
    exact hy

/-! ## Blanks -/

private theorem SpellsSign.not_isBlank (h : SpellsSign negative s) {c : Char}
    (hc : c ∈ s) : Text.isBlank c = false := by
  cases h with
  | none => exact absurd hc List.not_mem_nil
  | plus =>
      obtain rfl := List.mem_singleton.mp hc
      decide
  | minus =>
      obtain rfl := List.mem_singleton.mp hc
      decide

private theorem SpellsDigits.not_isBlank (hwhole : AreDigits whole)
    (hfraction : AreDigits fraction) (h : SpellsDigits whole fraction s)
    {c : Char} (hc : c ∈ s) : Text.isBlank c = false := by
  cases h with
  | whole => exact not_isBlank_digitChars hwhole hc
  | pointed =>
      rcases List.mem_append.mp hc with hc | hc
      · exact not_isBlank_digitChars hwhole hc
      · rcases List.mem_cons.mp hc with rfl | hc
        · decide
        · exact not_isBlank_digitChars hfraction hc

private theorem SpellsExponent.not_isBlank (h : SpellsExponent e s) {c : Char}
    (hc : c ∈ s) : Text.isBlank c = false := by
  cases h with
  | none => exact absurd hc List.not_mem_nil
  | marked hmark hsign hds hne =>
      rcases List.mem_cons.mp hc with rfl | hc
      · rcases hmark with rfl | rfl <;> decide
      · rcases List.mem_append.mp hc with hc | hc
        · exact hsign.not_isBlank hc
        · exact not_isBlank_digitChars hds hc

/-- A literal holds no blank, so nothing is trimmed from it. -/
theorem Spells.trim_eq (h : Spells x s) : Text.trim s = s := by
  refine Text.trim_eq_self fun c hc => ?_
  obtain ⟨hsign, hrest⟩ := h
  obtain ⟨hwhole, hfraction, hne, hdigits, hexponent⟩ := hrest
  rcases List.mem_append.mp hc with hc | hc
  · exact hsign.not_isBlank hc
  · rcases List.mem_append.mp hc with hc | hc
    · exact hdigits.not_isBlank hwhole hfraction hc
    · exact hexponent.not_isBlank hc

end

end RiskExchange.Number.Numeral
