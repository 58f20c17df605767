import RiskExchange.Proofs.Json.Numerals
import RiskExchange.Proofs.Json.Ranges
import RiskExchange.Proofs.Number.Shortest

/-! # Number texts — what a number is written as can be read back

    A number is written as the numeral `spell` spells. Reading that numeral may
    change a binary number, since a reader rounds more than once, but it is
    never refused (`ofLiteral_spell`). The few numbers next to the largest one
    are the only ones for which that is close, and they are tried out. -/

namespace RiskExchange.Json.Number

open RiskExchange.Number
open RiskExchange.Number.Binary64 (greatestExponent)
open RiskExchange.Text (maxWord64)

variable {ds : List Nat} {negative : Bool} {point e : Int}

/-! ## Literals of numbers -/

/-- Digits around a point. -/
def positionalLiteral (negative : Bool) (ds : List Nat) (point : Int) :
    NumberLiteral :=
  if point ≤ 0 then
    ⟨negative, [0], some (List.replicate (-point).toNat 0 ++ ds), none⟩
  else if ds.length ≤ point.toNat then
    ⟨negative, ds ++ List.replicate (point.toNat - ds.length) 0, some [0],
      none⟩
  else ⟨negative, ds.take point.toNat, some (ds.drop point.toNat), none⟩

/-- One digit, the others behind a point, and an exponent. -/
def exponentialLiteral (negative : Bool) (ds : List Nat) (e : Int) :
    NumberLiteral where
  negative := negative
  whole := ds.take 1
  fraction := if ds.length ≤ 1 then none else some (ds.drop 1)
  exponent := some (decide (e < 0), decimalDigits e.natAbs)

/-- The literal that a binary number is written as. -/
def floatLiteral (x : Binary64) : NumberLiteral :=
  if x.isZero then ⟨x.negative, [0], some [0], none⟩
  else
    let ds := decimalDigits x.shortest.1
    let point : Int := ds.length + x.shortest.2
    if format.least ≤ point - 1 ∧ point - 1 < format.limit then
      positionalLiteral x.negative ds point
    else exponentialLiteral x.negative ds (point - 1)

/-- The literal that a number is written as. -/
def spell : Number → NumberLiteral
  | .natural n => ⟨false, decimalDigits n, none, none⟩
  | .negative m => ⟨true, decimalDigits m, none, none⟩
  | .float x => floatLiteral x

/-- Digits around a point have no exponent. -/
private theorem parts_positionalLiteral (negative : Bool) (ds : List Nat)
    (point : Int) :
    (positionalLiteral negative ds point).negative = negative ∧
      (positionalLiteral negative ds point).fraction ≠ none ∧
      (positionalLiteral negative ds point).exponent = none := by
  rw [positionalLiteral]
  split
  · exact ⟨rfl, Option.some_ne_none _, rfl⟩
  · split
    · exact ⟨rfl, Option.some_ne_none _, rfl⟩
    · exact ⟨rfl, Option.some_ne_none _, rfl⟩

/-- A binary number is written with a point or with an exponent. -/
theorem parts_floatLiteral (x : Binary64) :
    (floatLiteral x).negative = x.negative ∧
      ((floatLiteral x).fraction ≠ none ∨ (floatLiteral x).exponent ≠ none) := by
  rw [floatLiteral]
  split
  · exact ⟨rfl, .inl (Option.some_ne_none _)⟩
  · dsimp only
    split
    · obtain ⟨hsign, hf, -⟩ := parts_positionalLiteral x.negative
        (decimalDigits x.shortest.1)
        ((decimalDigits x.shortest.1).length + x.shortest.2)
      exact ⟨hsign, .inl hf⟩
    · exact ⟨rfl, .inr (Option.some_ne_none _)⟩

/-! ## Their characters -/

theorem length_digitChars (ds : List Nat) :
    (digitChars ds).length = ds.length := List.length_map ..

theorem digitChars_append (as bs : List Nat) :
    digitChars (as ++ bs) = digitChars as ++ digitChars bs :=
  List.map_append

theorem digitChars_zeros (n : Nat) :
    digitChars (List.replicate n 0) = List.replicate n '0' :=
  List.map_replicate

/-- A numeral with a point and no exponent is written as its parts. -/
private theorem chars_pointed (negative : Bool) (ds fs : List Nat) :
    NumberLiteral.chars ⟨negative, ds, some fs, none⟩
      = (if negative then ['-'] else [])
        ++ (digitChars ds ++ '.' :: digitChars fs) := by
  rw [NumberLiteral.chars, NumberLiteral.exponentChars, List.append_nil,
    List.append_assoc]
  rfl

private theorem chars_positionalLiteral :
    (positionalLiteral negative ds point).chars
      = (if negative then ['-'] else []) ++ positional (digitChars ds) point := by
  rw [positionalLiteral, positional, length_digitChars]
  by_cases h0 : point ≤ 0
  · rw [if_pos h0, if_pos h0, chars_pointed, digitChars_append,
      digitChars_zeros]
    rfl
  · rw [if_neg h0, if_neg h0]
    dsimp only
    by_cases hlen : ds.length ≤ point.toNat
    · rw [if_pos hlen, if_pos hlen, chars_pointed, digitChars_append,
        digitChars_zeros]
      rfl
    · rw [if_neg hlen, if_neg hlen, chars_pointed, digitChars, digitChars,
        List.map_take, List.map_drop]
      rfl

private theorem chars_exponentialLiteral :
    (exponentialLiteral negative ds e).chars
      = (if negative then ['-'] else [])
        ++ exponential (digitChars ds) e := by
  rw [exponential, length_digitChars]
  simp only [NumberLiteral.chars, NumberLiteral.signChars,
    NumberLiteral.fractionChars, NumberLiteral.exponentChars,
    exponentialLiteral, digitChars_decimalDigits, List.append_assoc,
    decide_eq_true_eq]
  by_cases hlen : ds.length ≤ 1
  · rw [if_pos hlen, if_pos hlen, digitChars, List.map_take]
    rfl
  · rw [if_neg hlen, if_neg hlen, digitChars, List.map_take]
    dsimp only
    rw [digitChars, List.map_drop]
    rfl

private theorem chars_floatLiteral (x : Binary64) :
    (floatLiteral x).chars = (floatText x).toList := by
  rw [floatLiteral, floatText, String.toList_ofList, Binary64.signText]
  by_cases h0 : x.isZero = true
  · rw [if_pos h0, if_pos h0]
    exact chars_pointed x.negative [0] [0]
  · rw [if_neg h0, if_neg h0, Binary64.shortestDigits]
    dsimp only
    rw [← digitChars_decimalDigits, length_digitChars]
    split
    · exact chars_positionalLiteral
    · exact chars_exponentialLiteral

/-- A number is written as its literal. -/
theorem chars_spell (n : Number) : n.spell.chars = n.text.toList := by
  cases n with
  | natural n =>
      rw [text, String.toList_ofList, ← digitChars_decimalDigits]
      simp [spell, NumberLiteral.chars, NumberLiteral.signChars,
        NumberLiteral.fractionChars, NumberLiteral.exponentChars]
  | negative m =>
      rw [text, String.toList_ofList, ← digitChars_decimalDigits]
      simp [spell, NumberLiteral.chars, NumberLiteral.signChars,
        NumberLiteral.fractionChars, NumberLiteral.exponentChars]
  | float x => exact chars_floatLiteral x

/-! ## They are well spelled -/

/-- Digits without a zero in front, or a lone zero right before the point. -/
def Leading (ds : List Nat) (point : Int) : Prop :=
  (∃ d rest, ds = d :: rest ∧ d ≠ 0) ∨ (ds = [0] ∧ point = 1)

theorem Leading.ne_nil (h : Leading ds point) : ds ≠ [] := by
  rcases h with ⟨d, rest, rfl, -⟩ | ⟨rfl, -⟩
  · exact List.cons_ne_nil d rest
  · exact List.cons_ne_nil 0 []

private theorem areDigits_zero : AreDigits [0] := areDigits_replicate 1

private theorem wellSpelled_pointed {fs : List Nat} (hds : AreDigits ds)
    (hfront : ds = [0] ∨ ∃ d rest, ds = d :: rest ∧ d ≠ 0) (hne : fs ≠ [])
    (hfs : AreDigits fs) :
    NumberLiteral.WellSpelled ⟨negative, ds, some fs, none⟩ := by
  refine ⟨hds, hfront, ?_, fun _ _ h => nomatch h⟩
  rintro fs' ⟨⟩
  exact ⟨hne, hfs⟩

private theorem wellSpelled_positional (hds : AreDigits ds)
    (hl : Leading ds point) :
    (positionalLiteral negative ds point).WellSpelled := by
  rw [positionalLiteral]
  by_cases h0 : point ≤ 0
  · rw [if_pos h0]
    exact wellSpelled_pointed areDigits_zero (.inl rfl)
      (List.append_ne_nil_of_right_ne_nil _ hl.ne_nil)
      ((areDigits_replicate _).append hds)
  · rw [if_neg h0]
    by_cases hlen : ds.length ≤ point.toNat
    · rw [if_pos hlen]
      refine wellSpelled_pointed (hds.append (areDigits_replicate _)) ?_
        (List.cons_ne_nil 0 []) areDigits_zero
      rcases hl with ⟨d, rest, rfl, hd⟩ | ⟨rfl, rfl⟩
      · exact .inr ⟨d, _, rfl, hd⟩
      · exact .inl rfl
    · rw [if_neg hlen]
      have hpos : 0 < point.toNat := by omega
      refine wellSpelled_pointed
        (fun d hd => hds d (List.mem_of_mem_take hd)) ?_ ?_
        (fun d hd => hds d (List.mem_of_mem_drop hd))
      · rcases hl with ⟨d, rest, rfl, hd⟩ | ⟨rfl, rfl⟩
        · obtain ⟨n, hn⟩ := Nat.exists_eq_succ_of_ne_zero (Nat.ne_of_gt hpos)
          rw [hn]
          exact .inr ⟨d, _, rfl, hd⟩
        · exact .inl rfl
      · -- the point stands inside the digits
        intro hnil
        exact hlen (List.drop_eq_nil_iff.mp hnil)

private theorem wellSpelled_exponential (hds : AreDigits ds)
    (hl : ∃ d rest, ds = d :: rest ∧ d ≠ 0) :
    (exponentialLiteral negative ds e).WellSpelled := by
  obtain ⟨d, rest, rfl, hd⟩ := hl
  refine ⟨fun x hx => hds x (List.mem_of_mem_take hx), .inr ⟨d, [], rfl, hd⟩,
    ?_, ?_⟩
  · intro fs hfs
    rw [exponentialLiteral] at hfs
    dsimp only at hfs
    by_cases hlen : (d :: rest).length ≤ 1
    · rw [if_pos hlen] at hfs
      exact nomatch hfs
    · rw [if_neg hlen] at hfs
      cases hfs
      refine ⟨?_, fun x hx => hds x (List.mem_cons_of_mem _ hx)⟩
      intro hnil
      change rest = [] at hnil
      rw [hnil] at hlen
      exact hlen (Nat.le_refl 1)
  · rintro down es ⟨⟩
    exact ⟨decimalDigits_ne_nil _, areDigits_decimalDigits _⟩

private theorem leading_shortest (x : Binary64) :
    Leading (decimalDigits x.shortest.1)
      ((decimalDigits x.shortest.1).length + x.shortest.2) := by
  by_cases hk : x.shortest.1 = 0
  · right
    rw [x.shortest_le.zero hk, hk, decimalDigits_zero]
    exact ⟨rfl, rfl⟩
  · left
    cases hds : decimalDigits x.shortest.1 with
    | nil => exact absurd hds (decimalDigits_ne_nil _)
    | cons d rest => exact ⟨d, rest, rfl, head_decimalDigits hk hds⟩

/-- Digits that are not written positionally do not begin with a zero. -/
private theorem Leading.head_ne_zero (h : Leading ds point)
    (hp : ¬(format.least ≤ point - 1 ∧ point - 1 < format.limit)) :
    ∃ d rest, ds = d :: rest ∧ d ≠ 0 := by
  rcases h with hd | ⟨-, rfl⟩
  · exact hd
  · exact absurd (by decide) hp

theorem wellSpelled_floatLiteral (x : Binary64) :
    (floatLiteral x).WellSpelled := by
  rw [floatLiteral]
  by_cases h0 : x.isZero = true
  · rw [if_pos h0]
    exact wellSpelled_pointed areDigits_zero (.inl rfl)
      (List.cons_ne_nil 0 []) areDigits_zero
  · rw [if_neg h0]
    have hl := leading_shortest x
    have hds := areDigits_decimalDigits x.shortest.1
    dsimp only
    split
    · exact wellSpelled_positional hds hl
    next hp => exact wellSpelled_exponential hds (hl.head_ne_zero hp)

/-- What a number is written as can be spelled. -/
theorem wellSpelled_spell (n : Number) : n.spell.WellSpelled := by
  have hinteger (negative : Bool) (n : Nat) : NumberLiteral.WellSpelled
      ⟨negative, decimalDigits n, none, none⟩ := by
    refine NumberLiteral.wellSpelled_integer (areDigits_decimalDigits n) ?_
    by_cases hn : n = 0
    · rw [hn]
      exact .inl decimalDigits_zero
    · cases hds : decimalDigits n with
      | nil => exact absurd hds (decimalDigits_ne_nil n)
      | cons d rest => exact .inr ⟨d, rest, rfl, head_decimalDigits hn hds⟩
  cases n with
  | natural n => exact hinteger false n
  | negative m => exact hinteger true m
  | float x => exact wellSpelled_floatLiteral x

/-! ## What they are worth -/

variable {l : NumberLiteral} {x : Binary64} {k : Nat}

/-- Digits around a point are worth the decimal. -/
private theorem worth_positionalLiteral :
    (positionalLiteral negative ds point).worth
      = Numeral.digitsValue 0 ds * 10 ^ (point - ds.length) := by
  have hten : (10 : ℚ) ≠ 0 := by norm_num
  rw [positionalLiteral]
  by_cases h0 : point ≤ 0
  · rw [if_pos h0]
    change ((Numeral.digitsValue 0 (List.replicate (-point).toNat 0 ++ ds)
      : Nat) : ℚ) * 10 ^ ((0 : Int)
        - (List.replicate (-point).toNat 0 ++ ds).length) = _
    rw [digitsValue_zeros, List.length_append, List.length_replicate]
    congr 2
    omega
  · rw [if_neg h0]
    by_cases hlen : ds.length ≤ point.toNat
    · rw [if_pos hlen]
      change ((Numeral.digitsValue 0
        (ds ++ List.replicate (point.toNat - ds.length) 0 ++ [0]) : Nat) : ℚ)
          * 10 ^ ((0 : Int) - 1) = _
      rw [List.append_assoc, ← List.replicate_succ', digitsValue_append,
        digitsValue_replicate, Nat.cast_mul, mul_assoc, Nat.cast_pow,
        Nat.cast_ofNat, ← zpow_natCast, ← zpow_add₀ hten]
      congr 2
      omega
    · rw [if_neg hlen]
      change ((Numeral.digitsValue 0
        (ds.take point.toNat ++ ds.drop point.toNat) : Nat) : ℚ)
          * 10 ^ ((0 : Int) - (ds.drop point.toNat).length) = _
      rw [List.take_append_drop, List.length_drop]
      congr 2
      omega

private theorem places_exponentialLiteral :
    (exponentialLiteral negative ds e).places = ds.drop 1 := by
  rw [NumberLiteral.places, exponentialLiteral]
  dsimp only
  split
  next hlen => exact (List.drop_eq_nil_of_le hlen).symm
  · rfl

private theorem exponentValue_exponentialLiteral :
    (exponentialLiteral negative ds e).exponentValue = e := by
  rw [NumberLiteral.exponentValue, exponentialLiteral]
  dsimp only
  rw [digitsValue_decimalDigits]
  by_cases he : e < 0
  · rw [if_pos (by simpa using he)]
    omega
  · rw [if_neg (by simpa using he)]
    omega

/-- The numeral of a decimal with an exponent is worth the decimal. -/
private theorem worth_exponentialLiteral (k : Nat) (e : Int) :
    (exponentialLiteral negative (decimalDigits k)
      ((decimalDigits k).length + e - 1)).worth = k * 10 ^ e := by
  have hpos := length_decimalDigits_pos k
  rw [NumberLiteral.worth,
    places_exponentialLiteral, exponentValue_exponentialLiteral]
  change ((Numeral.digitsValue 0 ((decimalDigits k).take 1
    ++ (decimalDigits k).drop 1) : Nat) : ℚ) * _ = _
  rw [List.take_append_drop, digitsValue_decimalDigits, List.length_drop]
  congr 2
  omega

/-- A number that is not zero is written as its shortest decimal. -/
theorem worth_floatLiteral (h : x.significand ≠ 0) :
    (floatLiteral x).worth = x.shortest.1 * 10 ^ x.shortest.2 := by
  have h0 : ¬(x.isZero = true) := fun h0 => h (beq_iff_eq.mp h0)
  rw [floatLiteral, if_neg h0]
  dsimp only
  split
  · rw [worth_positionalLiteral, digitsValue_decimalDigits]
    congr 2
    omega
  · exact worth_exponentialLiteral x.shortest.1 x.shortest.2

/-! ## They are within reach -/

/-- A numeral without an exponent is worth less than the power of ten of its
    integer digits. -/
private theorem worth_lt (h : l.exponent = none)
    (hds : AreDigits (l.whole ++ l.places)) :
    l.worth < 10 ^ l.whole.length := by
  have hlt := digitsValue_lt hds
  rw [List.length_append] at hlt
  have hcast : ((Numeral.digitsValue 0 (l.whole ++ l.places) : Nat) : ℚ)
      < 10 ^ (l.whole.length + l.places.length) := by
    exact_mod_cast hlt
  rw [NumberLiteral.worth, NumberLiteral.exponentValue]
  rw [h]
  dsimp only
  rw [zero_sub, zpow_neg, zpow_natCast, ← div_eq_mul_inv,
    div_lt_iff₀ (by positivity), ← pow_add]
  exact hcast

private theorem pow_le_reach : (10 : ℚ) ^ 16 ≤ reach := by
  have hone : (1 : ℚ) ≤ 2 ^ 971 := one_le_pow₀ (by norm_num)
  have hfactor : (10 : ℚ) ^ 16 ≤ (2 ^ 53 - 13 / 2) * 2 := by norm_num
  have htwo : (2 : ℚ) ^ 971 = 2 * 2 ^ 970 := by rw [← pow_succ']
  have hone' : (1 : ℚ) ≤ 2 ^ 970 := one_le_pow₀ (by norm_num)
  rw [reach, htwo, ← mul_assoc]
  exact le_trans hfactor (le_mul_of_one_le_right (by norm_num) hone')

/-- A short numeral without an exponent denotes a number. -/
private theorem exists_ofLiteral_short (h : l.WellSpelled)
    (hf : l.fraction ≠ none) (he : l.exponent = none)
    (hlen : l.whole.length ≤ 16) : ∃ n, ofLiteral l = some n := by
  have hplaces : AreDigits l.places := by
    rw [NumberLiteral.places]
    cases hl : l.fraction with
    | none => exact absurd hl hf
    | some fs => exact (h.fraction fs hl).2
  have hpow : (10 : Nat) ^ l.whole.length ≤ 10 ^ 16 :=
    Nat.pow_le_pow_right (by decide) hlen
  have hfloat : l.IsFloat := by
    refine ⟨.inl hf, ?_, ?_⟩
    · have hlt := digitsValue_lt h.digits
      have hword : 10 ^ 16 ≤ maxWord64 := by decide
      omega
    · intro digits hdigits
      rw [he] at hdigits
      exact nomatch hdigits
  refine exists_ofLiteral hfloat ?_
  have hcast : (10 : ℚ) ^ l.whole.length ≤ 10 ^ 16 := by exact_mod_cast hpow
  exact le_trans (worth_lt he (h.digits.append hplaces)).le
    (le_trans hcast pow_le_reach)

/-- Up to sixteen digits stand before the point. -/
private theorem length_positionalLiteral (negative : Bool) (ds : List Nat)
    (hp : point ≤ 16) :
    (positionalLiteral negative ds point).whole.length ≤ 16 := by
  rw [positionalLiteral]
  by_cases h0 : point ≤ 0
  · rw [if_pos h0]
    exact (by decide : 1 ≤ 16)
  · rw [if_neg h0]
    by_cases hlen : ds.length ≤ point.toNat
    · rw [if_pos hlen, List.length_append, List.length_replicate]
      omega
    · rw [if_neg hlen, List.length_take]
      omega

/-- A positive decimal at most half a place above a number that is not too
    large denotes a number. -/
private theorem exists_ofLiteral_exponential (hb : x.Below k e) (hk : k ≠ 0)
    (hx : x.ceiling ≤ reach) :
    ∃ n, ofLiteral (exponentialLiteral negative (decimalDigits k)
      ((decimalDigits k).length + e - 1)) = some n := by
  have hle : (k : ℚ) * 10 ^ e ≤ reach := le_trans hb.le hx
  refine exists_ofLiteral ⟨.inr (Option.some_ne_none _), ?_, ?_⟩ ?_
  · have hds : AreDigits ((decimalDigits k).take 1) :=
      fun d hd => areDigits_decimalDigits k d (List.mem_of_mem_take hd)
    have hlt := digitsValue_lt hds
    have hpow : 10 ^ ((decimalDigits k).take 1).length ≤ 10 ^ 1 := by
      refine Nat.pow_le_pow_right (by decide) ?_
      rw [List.length_take]
      exact Nat.min_le_left ..
    have hword : 10 ^ 1 ≤ maxWord64 := by decide
    exact Nat.le_trans hlt.le (Nat.le_trans hpow hword)
  · intro digits hdigits
    obtain ⟨hdown, rfl⟩ := Prod.mk.inj (Option.some.inj hdigits)
    rw [digitsValue_decimalDigits]
    -- the first digit alone is worth less than the whole
    have hcast : (10 : ℚ) ^ ((decimalDigits k).length - 1) ≤ k := by
      exact_mod_cast pow_length_le hk
    have hpow : (10 : ℚ) ^ (((decimalDigits k).length - 1 : Nat) + e : Int)
        < 10 ^ (309 : Int) := by
      rw [zpow_add₀ (by norm_num), zpow_natCast]
      refine lt_of_le_of_lt (mul_le_mul_of_nonneg_right hcast
        (by positivity)) (lt_of_le_of_lt hle ?_)
      exact_mod_cast reach_lt_pow
    have hexp := (zpow_lt_zpow_iff_right₀ (by norm_num)).mp hpow
    have hpos := length_decimalDigits_pos k
    have hmax : (309 : Nat) ≤ maxExponent := by decide
    have hup : ¬((decimalDigits k).length + e - 1 < 0) := by
      simpa using hdown
    omega
  · rw [worth_exponentialLiteral]
    exact hle

/-- All but the six largest magnitudes stay within reach. -/
private theorem ceiling_le_reach (hx : x.Valid)
    (h : x.exponent = 971 → x.significand ≤ 2 ^ 53 - 7) :
    x.ceiling ≤ reach := by
  rw [Binary64.ceiling, reach]
  have hpow : (2 : ℚ) ^ (971 : Int) = 2 ^ 971 := zpow_ofNat 2 971
  rw [← hpow]
  by_cases he : x.exponent = 971
  · rw [he]
    refine mul_le_mul_of_nonneg_right ?_ (zpow_nonneg two_pos.le _)
    have hcast : (x.significand : ℚ) ≤ 9007199254740985 := by
      exact_mod_cast h he
    have hpow53 : (2 : ℚ) ^ 53 = 9007199254740992 := by norm_num
    rw [hpow53]
    linarith
  · have hle : x.exponent ≤ 970 := by
      have hmax := hx.exponent
      rw [greatestExponent] at hmax
      omega
    have hcast : (x.significand : ℚ) + 1 / 2 ≤ 2 ^ 53 := by
      have hlt : x.significand + 1 ≤ 2 ^ 53 := hx.significand
      have hlt' : ((x.significand + 1 : Nat) : ℚ) ≤ ((2 ^ 53 : Nat) : ℚ) :=
        Nat.cast_le.mpr hlt
      push_cast at hlt'
      linarith
    have hpow' : (2 : ℚ) ^ x.exponent ≤ 2 ^ (970 : Int) :=
      zpow_le_zpow_right₀ one_le_two hle
    have hmul := mul_le_mul hcast hpow' (zpow_nonneg two_pos.le _)
      (by norm_num)
    refine le_trans hmul ?_
    have hstep : (2 : ℚ) ^ (971 : Int) = 2 ^ (970 : Int) * 2 :=
      zpow_add_one₀ two_ne_zero 970
    rw [hstep, ← mul_assoc, mul_right_comm]
    exact mul_le_mul_of_nonneg_right (by norm_num)
      (zpow_nonneg two_pos.le _)

/-- The six largest magnitudes, of either sign, are read back too. -/
private theorem exists_ofLiteral_top (negative : Bool) {i : Nat} (hi : i < 6) :
    ∃ n, ofLiteral (floatLiteral ⟨negative, 2 ^ 53 - 1 - i, 971⟩)
      = some n := by
  -- their exact values are too large for the bound, but not their readings
  have h : ∀ negative : Bool, ∀ i < 6,
      (ofLiteral (floatLiteral ⟨negative, 2 ^ 53 - 1 - i, 971⟩)).isSome
        = true := by
    decide +kernel
  exact Option.isSome_iff_exists.mp (h negative i hi)

/-- What a number not next to the largest one is written as denotes a
    number. -/
private theorem exists_ofLiteral_of_ceiling (hreach : x.ceiling ≤ reach) :
    ∃ n, ofLiteral (floatLiteral x) = some n := by
  have hw := wellSpelled_floatLiteral x
  rw [floatLiteral] at hw ⊢
  by_cases h0 : x.isZero = true
  · rw [if_pos h0] at hw ⊢
    exact exists_ofLiteral_short hw (Option.some_ne_none _) rfl
      (by decide : 1 ≤ 16)
  · rw [if_neg h0] at hw ⊢
    dsimp only at hw ⊢
    split at hw
    next hp =>
      -- positional notation spells at most sixteen digits before the point
      rw [if_pos hp]
      have hlimit : format.limit = 16 := rfl
      obtain ⟨-, hf, he⟩ := parts_positionalLiteral x.negative
        (decimalDigits x.shortest.1)
        ((decimalDigits x.shortest.1).length + x.shortest.2)
      exact exists_ofLiteral_short hw hf he
        (length_positionalLiteral x.negative _ (by omega))
    next hp =>
      rw [if_neg hp]
      have hk : x.shortest.1 ≠ 0 := by
        intro hk
        obtain ⟨d, rest, hds, hd⟩ := (leading_shortest x).head_ne_zero hp
        rw [hk, decimalDigits_zero] at hds
        cases hds
        exact hd rfl
      exact exists_ofLiteral_exponential x.shortest_le hk hreach

/-- What a binary number is written as denotes a number. -/
theorem exists_ofLiteral_floatLiteral (hx : x.Valid) :
    ∃ n, ofLiteral (floatLiteral x) = some n := by
  by_cases htop : x.exponent = 971 ∧ 2 ^ 53 - 7 < x.significand
  · obtain ⟨negative, m, e⟩ := x
    obtain ⟨he, hm⟩ := htop
    dsimp only at he hm
    have hlt : m < 2 ^ 53 := hx.significand
    rw [he, show m = 2 ^ 53 - 1 - (2 ^ 53 - 1 - m) by omega]
    exact exists_ofLiteral_top negative (by omega)
  · refine exists_ofLiteral_of_ceiling (ceiling_le_reach hx ?_)
    intro he
    by_contra hlt
    exact htop ⟨he, Nat.lt_of_not_le hlt⟩

/-! ## Reading back -/

private theorem absorb_decimalDigits {n : Nat} (h : n ≤ maxWord64) :
    absorb 0 (decimalDigits n) = (n, 0) := by
  have hvalue := digitsValue_decimalDigits n
  have habsorb := absorb_of_le (Nat.le_trans (Nat.le_of_eq hvalue) h)
  rw [hvalue] at habsorb
  exact habsorb

/-- A natural number is read back as itself. -/
theorem ofLiteral_spell_natural {n : Nat} (h : n ≤ maxWord64) :
    ofLiteral (spell (.natural n)) = some (.natural n) := by
  have habsorb := absorb_decimalDigits h
  rw [spell, ofLiteral]
  rw [habsorb]
  rfl

/-- The number that is read back from what a number is written as. -/
def reread (n : Number) : Number := (ofLiteral n.spell).getD n

/-- What a number is written as can be read back. -/
theorem ofLiteral_spell {n : Number} (h : n.InRange) :
    ofLiteral n.spell = some n.reread := by
  have hsome : ∃ m, ofLiteral n.spell = some m := by
    cases n with
    | natural n => exact ⟨.natural n, ofLiteral_spell_natural h⟩
    | negative m =>
        refine ⟨.negative m, ?_⟩
        have hword : m ≤ maxWord64 := Nat.le_trans h.2 (by decide)
        have habsorb := absorb_decimalDigits hword
        rw [spell, ofLiteral]
        rw [habsorb]
        exact if_pos h
    | float x => exact exists_ofLiteral_floatLiteral h
  obtain ⟨m, hm⟩ := hsome
  rw [reread, hm]
  rfl

end RiskExchange.Json.Number
