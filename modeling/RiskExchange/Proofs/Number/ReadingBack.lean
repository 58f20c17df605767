import Mathlib.Data.Nat.Cast.Order.Field
import RiskExchange.Proofs.Number.Decimals
import RiskExchange.Proofs.Number.Shortest
import RiskExchange.Proofs.Number.Significant

/-! # Reading back — the shortest decimal is read as the number

    Whatever lies in the basin of a number is rounded to it (`round_of_holds`),
    so it is enough that the search for a shortest decimal succeeds. It does,
    with seventeen digits at the latest: the grid is so fine by then that one of
    the two grid points next to the number lies in the basin
    (`exists_hit`). -/

namespace RiskExchange.Number.Binary64

variable {x : Binary64} {num den : Nat} {negative : Bool} {q : ℚ}

/-! ## Basins -/

/-- The significand is the only one of its length with a nearer lower end. -/
def AtPower (x : Binary64) : Prop :=
  x.significand = 2 ^ 52 ∧ x.exponent ≠ leastExponent

/-- The ends of the basin, in places. -/
theorem basin_ends (hm : x.significand ≠ 0) :
    (x.basin.upper : ℚ) = 4 * x.significand + 2 ∧
    (x.AtPower → (x.basin.lower : ℚ) = 4 * x.significand - 1) ∧
    (¬x.AtPower → (x.basin.lower : ℚ) = 4 * x.significand - 2) := by
  refine ⟨by simp [basin], ?_, ?_⟩
  · intro h
    have hp : x.significand = Nat.pow 2 52 ∧ x.exponent ≠ leastExponent := h
    have hle : 1 ≤ 4 * x.significand := by omega
    rw [basin]
    dsimp only
    rw [if_pos hp, Nat.cast_sub hle]
    push_cast
    rfl
  · intro h
    have hp : ¬(x.significand = Nat.pow 2 52 ∧ x.exponent ≠ leastExponent) := h
    have hle : 2 ≤ 4 * x.significand := by omega
    rw [basin]
    dsimp only
    rw [if_neg hp, Nat.cast_sub hle]
    push_cast
    rfl

/-- What lies in the basin is nearest to the significand, and not more than a
    quarter of a place below it where the places get smaller. -/
theorem nearest_of_holds (hm : x.significand ≠ 0)
    (h : x.basin.Holds (4 * q)) : NearestEven q x.significand ∧
      (x.AtPower → x.significand - 1 / 4 ≤ q) := by
  obtain ⟨hupper, hpower, hplain⟩ := basin_ends hm
  obtain ⟨hlow, hhigh⟩ := h.le
  rw [hupper] at hhigh
  have hlow' : 4 * (x.significand : ℚ) - 2 ≤ 4 * q := by
    by_cases hp : x.AtPower
    · rw [hpower hp] at hlow
      linarith
    · rw [hplain hp] at hlow
      exact hlow
  refine ⟨⟨?_, ?_⟩, ?_⟩
  · rw [abs_le]
    constructor
    · linarith
    · linarith
  · -- half a place away only the closed basin of an even number holds it
    intro htie
    by_contra hodd
    have hopen : ¬(x.basin.closed = true) := by
      rw [Nat.even_iff] at hodd
      simpa [basin] using hodd
    rw [Basin.Holds, if_neg hopen, hupper] at h
    rcases (abs_eq (by norm_num)).mp htie with heq | heq
    · linarith [h.2]
    · by_cases hp : x.AtPower
      · rw [hpower hp] at h
        linarith [h.1]
      · rw [hplain hp] at h
        linarith [h.1]
  · intro hp
    rw [hpower hp] at hlow
    linarith

/-- Bounds of a quotient in places of `2 ^ e` are bounds of its exponent. -/
private theorem binaryExponent_lt {e : Int} {n : Nat} (hn : 0 < num)
    (hd : 0 < den) (h : num / den / (2 : ℚ) ^ e < 2 ^ n) :
    binaryExponent num den < e + n := by
  have hpow : (2 : ℚ) ^ binaryExponent num den < 2 ^ (e + n) := by
    refine (binaryExponent_bounds hn hd).1.trans_lt ?_
    rw [div_lt_iff₀ (zpow_pos two_pos _)] at h
    rw [zpow_add₀ two_ne_zero, zpow_natCast, mul_comm]
    exact h
  exact (zpow_lt_zpow_iff_right₀ one_lt_two).mp hpow

private theorem le_binaryExponent {e : Int} {n : Nat} (hn : 0 < num)
    (hd : 0 < den) (h : 2 ^ n ≤ num / den / (2 : ℚ) ^ e) :
    e + n ≤ binaryExponent num den := by
  have hpow : (2 : ℚ) ^ (e + n) < 2 ^ (binaryExponent num den + 1) := by
    refine lt_of_le_of_lt ?_ (binaryExponent_bounds hn hd).2
    rw [le_div_iff₀ (zpow_pos two_pos _)] at h
    rw [zpow_add₀ two_ne_zero, zpow_natCast, mul_comm]
    exact h
  exact Int.lt_add_one_iff.mp ((zpow_lt_zpow_iff_right₀ one_lt_two).mp hpow)

/-- A quotient that lies in the basin of a number is rounded at its exponent, or
    right below a power of two at the one before. -/
private theorem roundingExponent_of_holds (hx : x.Canonical)
    (hm : x.significand ≠ 0) (hn : 0 < num) (hd : 0 < den)
    (hq : num / den / (2 : ℚ) ^ x.exponent = q) (h : x.basin.Holds (4 * q)) :
    roundingExponent num den = x.exponent ∨
      (x.AtPower ∧ q < 2 ^ 52 ∧
        roundingExponent num den = x.exponent - 1) := by
  obtain ⟨hnear, hquarter⟩ := nearest_of_holds hm h
  obtain ⟨hlow, hhigh⟩ := abs_le.mp hnear.near
  have hsig : (x.significand : ℚ) + 1 ≤ 2 ^ 53 := by
    have hlt : x.significand + 1 ≤ 2 ^ 53 := hx.significand
    exact_mod_cast hlt
  have hupper := binaryExponent_lt (e := x.exponent) (n := 53) hn hd
    (by linarith)
  rw [roundingExponent]
  rcases hx.bits with hleast | hbits
  · left
    omega
  · have hleast := hx.least
    by_cases hpow : (2 : ℚ) ^ 52 ≤ q
    · left
      have hlower := le_binaryExponent hn hd (hq ▸ hpow)
      omega
    · -- the significand is the least one with 53 bits
      have hlt := not_le.mp hpow
      have hupper' := binaryExponent_lt hn hd (hq ▸ hlt)
      have hcast : ((2 ^ 52 : Nat) : ℚ) ≤ x.significand := by
        exact_mod_cast hbits
      have heq : x.significand = 2 ^ 52 := by
        refine Nat.le_antisymm (Nat.lt_succ_iff.mp ?_) hbits
        have : (x.significand : ℚ) < ((2 ^ 52 + 1 : Nat) : ℚ) := by
          push_cast
          linarith
        exact_mod_cast this
      by_cases he : x.exponent = leastExponent
      · left
        omega
      · right
        have hp : x.AtPower := ⟨heq, he⟩
        have hq' := hquarter hp
        rw [heq] at hq'
        have hlower := le_binaryExponent (e := x.exponent) (n := 51) hn hd
          (by norm_num at hq' ⊢; linarith)
        exact ⟨hp, hlt, by omega⟩

/-- A quotient that lies in the basin of a number is rounded to it. -/
theorem round_of_holds (negative : Bool) (hx : x.Canonical)
    (hm : x.significand ≠ 0) (hd : 0 < den)
    (h : x.basin.Holds (4 * (num / den / 2 ^ x.exponent))) :
    round negative num den = some { x with negative } := by
  generalize hq : (num : ℚ) / den / 2 ^ x.exponent = q at h
  obtain ⟨hnear, hquarter⟩ := nearest_of_holds hm h
  have hpos : (0 : ℚ) < q := by
    have hone : (1 : ℚ) ≤ x.significand := by
      exact_mod_cast Nat.one_le_iff_ne_zero.mpr hm
    linarith [(abs_le.mp hnear.near).1]
  have hn : 0 < num := by
    refine Nat.pos_of_ne_zero fun h0 => ?_
    rw [h0, Nat.cast_zero, zero_div, zero_div] at hq
    exact hpos.ne hq
  have hrounded := nearestEven_roundedAt num hd
  have hgreatest := hx.exponent
  rw [round_eq negative hn]
  rcases roundingExponent_of_holds hx hm hn hd hq h with he | ⟨hp, hlt, he⟩
  · rw [he, hq] at hrounded
    have hne : x.significand ≠ 2 ^ 53 := Nat.ne_of_lt hx.significand
    rw [he, hrounded.unique hnear, normalized, if_neg hne, if_neg hne,
      if_neg (Int.not_lt.mpr hgreatest)]
  · -- at half the place the quotient is rounded up to the next power
    have hdouble : (num : ℚ) / den / 2 ^ (x.exponent - 1) = 2 * q := by
      rw [← hq, zpow_sub_one₀ two_ne_zero, ← div_div, div_inv_eq_mul,
        mul_comm]
    have hq' := hquarter hp
    obtain ⟨hsig, -⟩ := hp
    rw [hsig] at hq'
    push_cast at hq'
    have hcarry : NearestEven (2 * q) (2 ^ 53) := by
      refine ⟨?_, fun _ => by decide⟩
      rw [abs_le]
      push_cast
      constructor
      · linarith
      · linarith
    rw [he, hdouble] at hrounded
    rw [he, hrounded.unique hcarry, normalized, if_pos rfl, if_pos rfl,
      sub_add_cancel, if_neg (Int.not_lt.mpr hgreatest), ← hsig]

/-! ## The search succeeds -/

/-- Of two neighbours on a grid that is fine enough one lies in the basin. -/
private theorem holds_of_fine {k : Nat} {step : ℚ} (hm : x.significand ≠ 0)
    (hbits : (x.significand : ℚ) < 2 ^ 53)
    (hfine : 10 ^ 16 * step ≤ x.significand) (hlow : k * step ≤ x.significand)
    (hhigh : x.significand < (k + 1 : Nat) * step) :
    x.basin.Holds (4 * (k * step)) ∨
      x.basin.Holds (4 * ((k + 1 : Nat) * step)) := by
  obtain ⟨hupper, hpower, hplain⟩ := basin_ends hm
  rw [Nat.cast_succ] at hhigh ⊢
  have hstep : step < 1 := by
    have hpow : (2 : ℚ) ^ 53 < 10 ^ 16 := by norm_num
    linarith
  rcases lt_or_ge ((k + 1) * step) (x.significand + 1 / 2) with hlt | hge
  · -- the upper neighbour is less than half a place above
    right
    refine Basin.holds_of_lt ?_ (by rw [hupper]; linarith)
    by_cases hp : x.AtPower
    · rw [hpower hp]
      linarith
    · rw [hplain hp]
      linarith
  · left
    refine Basin.holds_of_lt ?_ (by rw [hupper]; linarith)
    by_cases hp : x.AtPower
    · -- the step is at most half as long here
      have hsig : (x.significand : ℚ) = 2 ^ 52 := by
        exact_mod_cast congrArg (Nat.cast (R := ℚ)) hp.1
      rw [hpower hp]
      norm_num at hsig
      linarith
    · rw [hplain hp]
      linarith

/-- A number lies between the two grid points next to it. -/
private theorem grid_bounds (x : Binary64) (e : Int) {k : Nat}
    (hk : (scaled 10 x.ratio.1 x.ratio.2 e).1
      / (scaled 10 x.ratio.1 x.ratio.2 e).2 = k) :
    (k : ℚ) * 10 ^ e ≤ x.magnitude ∧
      x.magnitude < ((k + 1 : Nat) : ℚ) * 10 ^ e := by
  have hunit : (0 : ℚ) < 10 ^ e := zpow_pos (by norm_num) _
  have hb := scaled_snd_pos (by norm_num : 0 < 10) x.ratio.1 x.ratio_snd_pos e
  have hquot := scaled_div 10 (by norm_num) x.ratio.1 x.ratio.2 e
  rw [ratio_div, Nat.cast_ofNat] at hquot
  generalize (scaled 10 x.ratio.1 x.ratio.2 e).1 = n at hk hquot
  generalize (scaled 10 x.ratio.1 x.ratio.2 e).2 = b at hk hquot hb
  subst hk
  constructor
  · rw [← le_div_iff₀ hunit, ← hquot]
    exact Nat.cast_div_le
  · rw [← div_lt_iff₀ hunit, ← hquot, div_lt_iff₀ (Nat.cast_pos.mpr hb)]
    exact_mod_cast Nat.lt_mul_of_div_lt (Nat.lt_succ_self _) hb

/-- With seventeen digits one of the grid points next to a number is a hit. -/
theorem exists_hit (hx : x.Canonical) (hm : x.significand ≠ 0) {e : Int}
    (he : (10 : ℚ) ^ (e + 16) ≤ x.magnitude) :
    ∃ k, x.gridPoint? e = some k := by
  have hplace : (0 : ℚ) < 2 ^ x.exponent := zpow_pos two_pos _
  have hunit : (0 : ℚ) < 10 ^ e := zpow_pos (by norm_num) _
  rw [gridPoint?_eq]
  dsimp only
  generalize hk : (scaled 10 x.ratio.1 x.ratio.2 e).1
    / (scaled 10 x.ratio.1 x.ratio.2 e).2 = k
  obtain ⟨hlow, hhigh⟩ := grid_bounds x e hk
  have hten : (10 : ℚ) ^ 16 * 10 ^ e ≤ x.magnitude := by
    rw [zpow_add₀ (by norm_num), mul_comm] at he
    exact_mod_cast he
  have hpos : 0 < k := by
    have hlt := lt_of_mul_lt_mul_right (hten.trans_lt hhigh) hunit.le
    have hlt' : 10 ^ 16 < k + 1 := by exact_mod_cast hlt
    omega
  -- counted in places, the grid is fine enough
  have hplaces (k : Nat) : (k : ℚ) * 10 ^ e / 2 ^ x.exponent
      = k * (10 ^ e / 2 ^ x.exponent) := mul_div_assoc ..
  have hbits : (x.significand : ℚ) < 2 ^ 53 := by
    exact_mod_cast hx.significand
  rw [magnitude] at hlow hhigh hten
  rw [← div_le_iff₀ hplace, hplaces] at hlow
  rw [← lt_div_iff₀ hplace, hplaces] at hhigh
  rw [← div_le_iff₀ hplace, mul_div_assoc] at hten
  have hfine := holds_of_fine hm hbits hten hlow hhigh
  rw [← hplaces, ← hplaces] at hfine
  rcases hfine with h | h
  · rw [hits_iff.mpr ⟨hpos, h⟩]
    cases x.hits e (k + 1) with
    | true => exact ⟨_, rfl⟩
    | false => exact ⟨_, rfl⟩
  · rw [hits_iff.mpr ⟨Nat.succ_pos _, h⟩]
    cases x.hits e k with
    | true => exact ⟨_, rfl⟩
    | false => exact ⟨_, rfl⟩

/-- A search that comes by a grid with a hit ends with a hit. -/
theorem hits_searchGrids {top : Int} {digits tries last k : Nat}
    (hfirst : digits ≤ last) (hlast : last < digits + tries)
    (h : x.gridPoint? (top + 1 - last) = some k) :
    x.hits (x.searchGrids top digits tries).2
      (x.searchGrids top digits tries).1 = true := by
  induction tries generalizing digits with
  | zero => omega
  | succ tries ih =>
      unfold searchGrids
      dsimp only
      cases hg : x.gridPoint? (top + 1 - digits) with
      | some k => exact hits_of_gridPoint? hg
      | none =>
          have hne : digits ≠ last := by
            rintro rfl
            rw [hg] at h
            cases h
          exact ih (by omega) (by omega)

/-- The shortest decimal of a number is positive and lies in its basin. -/
theorem shortest_holds (hx : x.Canonical) (hm : x.significand ≠ 0) :
    x.shortest.1 ≠ 0 ∧ x.basin.Holds
      (4 * (x.shortest.1 * 10 ^ x.shortest.2 / 2 ^ x.exponent)) := by
  have hpos : 0 < x.magnitude := by
    refine lt_of_le_of_ne x.magnitude_nonneg fun h0 => hm ?_
    exact magnitude_eq_zero_iff.mp h0.symm
  have hd := x.ratio_snd_pos
  have hn : 0 < x.ratio.1 := by
    refine Nat.pos_of_ne_zero fun h0 => hpos.ne ?_
    rw [← ratio_div, h0, Nat.cast_zero, zero_div]
  have htop := (decimalExponent_bounds hn hd).1
  rw [ratio_div] at htop
  generalize ht : decimalExponent x.ratio.1 x.ratio.2 = top at htop
  have hlast : (10 : ℚ) ^ (top + 1 - (17 : Nat) + 16) ≤ x.magnitude := by
    have hexp : top + 1 - (17 : Nat) + 16 = top := by omega
    rw [hexp]
    exact htop
  obtain ⟨k, hk⟩ := exists_hit hx hm hlast
  have hhit : x.hits (x.searchGrids top 1 17).2 (x.searchGrids top 1 17).1
      = true :=
    hits_searchGrids (by decide) (by decide) hk
  have hshort : x.shortest = stripZeros 17 (x.searchGrids top 1 17).1
      (x.searchGrids top 1 17).2 := by
    rw [← ht]
    rfl
  obtain ⟨hk, hin⟩ := hits_iff.mp hhit
  rw [hshort, stripZeros_value]
  refine ⟨?_, hin⟩
  intro h0
  exact Nat.ne_of_gt hk (stripZeros_zero 17 _ h0).1

end RiskExchange.Number.Binary64

namespace RiskExchange.Number

open Binary64

/-- A decimal that lies in the basin of a number is read as it. -/
theorem Decimal.toBinary64_of_holds {x : Binary64} {z : Decimal}
    (hx : x.Canonical) (hm : x.significand ≠ 0)
    (hs : z.negative = x.negative)
    (h : x.basin.Holds (4 * (z.magnitude / 2 ^ x.exponent))) :
    z.toBinary64 = some x := by
  rw [← Decimal.ratio_div] at h
  rw [Decimal.toBinary64_eq_round,
    round_of_holds z.negative hx hm z.ratio_snd_pos h, hs]

end RiskExchange.Number
