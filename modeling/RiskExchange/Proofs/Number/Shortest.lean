import RiskExchange.Number.Shortest
import RiskExchange.Proofs.Number.Rounding

/-! # Shortest decimals — no farther up than half a place

    Every grid point that the search takes lies in the basin of the number, so
    the shortest decimal is at most half a place above the number
    (`shortest_le`). Nothing is said here about how short it is. -/

namespace RiskExchange.Number.Binary64

variable {x : Binary64} {k : Nat} {e : Int}

/-- The value half a place above a number. -/
def ceiling (x : Binary64) : ℚ := (x.significand + 1 / 2) * 2 ^ x.exponent

/-- A decimal is a number that the search may take: nothing at all, or
    positive and at most half a place above the number. -/
structure Below (x : Binary64) (k : Nat) (e : Int) : Prop where
  le : (k : ℚ) * 10 ^ e ≤ x.ceiling
  zero : k = 0 → e = 0

theorem ceiling_nonneg (x : Binary64) : 0 ≤ x.ceiling := by
  rw [ceiling]
  positivity

/-! ## Grid points -/

/-- The grid point in quarters of the last place of the number. -/
def quarters (x : Binary64) (exponent : Int) (k : Nat) : Nat × Nat :=
  scaled 2 (scaled 10 k 1 (-exponent)).1 (scaled 10 k 1 (-exponent)).2
    x.exponent

/-- The grid point is positive and lies in the basin. -/
def hits (x : Binary64) (exponent : Int) (k : Nat) : Bool :=
  0 < k && x.basin.contains (4 * (x.quarters exponent k).1)
    (x.quarters exponent k).2

theorem gridPoint?_eq (x : Binary64) (e : Int) :
    x.gridPoint? e =
      (let n := (scaled 10 x.ratio.1 x.ratio.2 e).1
      let d := (scaled 10 x.ratio.1 x.ratio.2 e).2
      match x.hits e (n / d), x.hits e (n / d + 1) with
      | true, true => some (roundHalfEven n d)
      | true, false => some (n / d)
      | false, true => some (n / d + 1)
      | false, false => none) := rfl

theorem quarters_snd_pos (x : Binary64) (e : Int) (k : Nat) :
    0 < (x.quarters e k).2 :=
  scaled_snd_pos two_pos _ (scaled_snd_pos (by norm_num) k one_pos _) _

/-- A grid point, counted in places of the number. -/
theorem quarters_div (x : Binary64) (e : Int) (k : Nat) :
    ((x.quarters e k).1 : ℚ) / (x.quarters e k).2
      = k * 10 ^ e / 2 ^ x.exponent := by
  have h2 := scaled_div 2 two_pos (scaled 10 k 1 (-e)).1
    (scaled 10 k 1 (-e)).2 x.exponent
  rw [scaled_neg_div 10 (by norm_num)] at h2
  exact_mod_cast h2

/-- The number lies in the basin. -/
def Basin.Holds (i : Basin) (q : ℚ) : Prop :=
  if i.closed then (i.lower : ℚ) ≤ q ∧ q ≤ i.upper
  else (i.lower : ℚ) < q ∧ q < i.upper

theorem contains_iff {i : Basin} {a b : Nat} (hb : 0 < b) :
    i.contains a b = true ↔ i.Holds (a / b) := by
  have hb' : (0 : ℚ) < b := Nat.cast_pos.mpr hb
  rw [Basin.contains, Basin.Holds]
  by_cases hc : i.closed = true
  · rw [if_pos hc, if_pos hc, Bool.and_eq_true, decide_eq_true_eq,
      decide_eq_true_eq, le_div_iff₀ hb', div_le_iff₀ hb']
    exact_mod_cast Iff.rfl
  · rw [if_neg hc, if_neg hc, Bool.and_eq_true, decide_eq_true_eq,
      decide_eq_true_eq, lt_div_iff₀ hb', div_lt_iff₀ hb']
    exact_mod_cast Iff.rfl

theorem Basin.Holds.le {i : Basin} {q : ℚ} (h : i.Holds q) :
    (i.lower : ℚ) ≤ q ∧ q ≤ i.upper := by
  rw [Holds] at h
  split at h
  · exact h
  · exact ⟨h.1.le, h.2.le⟩

theorem Basin.holds_of_lt {i : Basin} {q : ℚ} (hlow : (i.lower : ℚ) < q)
    (hhigh : q < i.upper) : i.Holds q := by
  rw [Holds]
  split
  · exact ⟨hlow.le, hhigh.le⟩
  · exact ⟨hlow, hhigh⟩

/-- A grid point is a hit if it is positive and lies in the basin. -/
theorem hits_iff : x.hits e k = true ↔
    0 < k ∧ x.basin.Holds (4 * (k * 10 ^ e / 2 ^ x.exponent)) := by
  rw [hits, Bool.and_eq_true, decide_eq_true_eq,
    contains_iff (x.quarters_snd_pos e k), Nat.cast_mul, mul_div_assoc,
    quarters_div]
  rfl

/-- A grid point in the basin is at most half a place above the number. -/
theorem below_of_hits (h : x.hits e k = true) : x.Below k e := by
  obtain ⟨hk, hin⟩ := hits_iff.mp h
  refine ⟨?_, fun h0 => absurd h0 (Nat.ne_of_gt hk)⟩
  have hupper : (x.basin.upper : ℚ) = 4 * x.significand + 2 := by
    rw [basin]
    push_cast
    rfl
  have hle := hin.le.2
  rw [hupper] at hle
  rw [ceiling, ← div_le_iff₀ (zpow_pos two_pos _)]
  linarith

/-- The grid point that is taken is a hit. -/
theorem hits_of_gridPoint? (h : x.gridPoint? e = some k) :
    x.hits e k = true := by
  rw [gridPoint?_eq] at h
  dsimp only at h
  generalize (scaled 10 x.ratio.1 x.ratio.2 e).1 = n at h
  generalize (scaled 10 x.ratio.1 x.ratio.2 e).2 = b at h
  cases h1 : x.hits e (n / b) with
  | false =>
      cases h2 : x.hits e (n / b + 1) with
      | false =>
          rw [h1, h2] at h
          exact nomatch h
      | true =>
          rw [h1, h2] at h
          cases h
          exact h2
  | true =>
      cases h2 : x.hits e (n / b + 1) with
      | false =>
          rw [h1, h2] at h
          cases h
          exact h1
      | true =>
          rw [h1, h2] at h
          cases h
          -- the nearer one is one of the two
          obtain ⟨hlow, hhigh⟩ := roundHalfEven_bounds n b
          rcases Nat.eq_or_lt_of_le hlow with heq | hlt
          · rw [← heq]
            exact h1
          · rw [Nat.le_antisymm hhigh hlt]
            exact h2

/-! ## The search -/

private theorem below_nothing (x : Binary64) : x.Below 0 0 := by
  refine ⟨?_, fun _ => rfl⟩
  rw [Nat.cast_zero, zero_mul]
  exact x.ceiling_nonneg

theorem below_searchGrids (x : Binary64) (top : Int) (digits tries : Nat) :
    x.Below (x.searchGrids top digits tries).1
      (x.searchGrids top digits tries).2 := by
  induction tries generalizing digits with
  | zero => exact below_nothing x
  | succ tries ih =>
      unfold searchGrids
      dsimp only
      cases h : x.gridPoint? (top + 1 - digits) with
      | none => exact ih (digits + 1)
      | some k => exact below_of_hits (hits_of_gridPoint? h)

/-- Zeros at the end are dropped without changing the value. -/
theorem stripZeros_value (fuel k : Nat) (e : Int) :
    ((stripZeros fuel k e).1 : ℚ) * 10 ^ (stripZeros fuel k e).2
      = k * 10 ^ e := by
  induction fuel generalizing k e with
  | zero => rfl
  | succ fuel ih =>
      rw [stripZeros]
      by_cases hk : k ≠ 0 ∧ k % 10 = 0
      · have hmul : k / 10 * 10 = k :=
          Nat.div_mul_cancel (Nat.dvd_of_mod_eq_zero hk.2)
        have hcast : (k : ℚ) = ((k / 10 : Nat) : ℚ) * 10 := by
          exact_mod_cast hmul.symm
        rw [if_pos hk, ih, zpow_add_one₀ (by norm_num),
          mul_comm ((10 : ℚ) ^ e), ← mul_assoc, ← hcast]
      · rw [if_neg hk]

/-- Nothing but zero is left only of zero. -/
theorem stripZeros_zero (fuel : Nat) (e : Int)
    (h : (stripZeros fuel k e).1 = 0) :
    k = 0 ∧ (stripZeros fuel k e).2 = e := by
  induction fuel generalizing k e with
  | zero => exact ⟨h, rfl⟩
  | succ fuel ih =>
      rw [stripZeros] at h ⊢
      by_cases hk : k ≠ 0 ∧ k % 10 = 0
      · rw [if_pos hk] at h
        obtain ⟨h0, -⟩ := ih (e + 1) h
        omega
      · rw [if_neg hk] at h ⊢
        exact ⟨h, rfl⟩

theorem below_stripZeros (fuel : Nat) (h : x.Below k e) :
    x.Below (stripZeros fuel k e).1 (stripZeros fuel k e).2 := by
  constructor
  · rw [stripZeros_value]
    exact h.le
  · intro h0
    obtain ⟨hk, he⟩ := stripZeros_zero fuel e h0
    exact he.trans (h.zero hk)

/-- The shortest decimal is at most half a place above the number. -/
theorem shortest_le (x : Binary64) : x.Below x.shortest.1 x.shortest.2 :=
  below_stripZeros 17 (below_searchGrids x _ 1 17)

end RiskExchange.Number.Binary64
