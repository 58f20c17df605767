import Mathlib.Algebra.Group.Nat.Defs
import RiskExchange.Number.Decimal
import RiskExchange.Text.Blank

/-! # Digits — lists of decimal digits and the numbers they spell

    A numeral is written as characters and read as a list of digits. The digits
    of a number (`decimalDigits`) are those that it is written with, their
    value is the number, and they begin with a zero only for zero itself. -/

namespace RiskExchange.Number

open Numeral (digitsValue)

variable {ds : List Nat}

/-! ## The value of digits -/

theorem digitsValue_append (v : Nat) (as bs : List Nat) :
    digitsValue v (as ++ bs) = digitsValue (digitsValue v as) bs :=
  List.foldl_append

/-- More digits do not make the value less than that of zeros in their
    places. -/
theorem mul_pow_le_digitsValue (v : Nat) (ds : List Nat) :
    v * 10 ^ ds.length ≤ digitsValue v ds := by
  induction ds generalizing v with
  | nil => exact Nat.le_of_eq (Nat.mul_one v)
  | cons d rest ih =>
      refine Nat.le_trans ?_ (ih (v * 10 + d))
      rw [List.length_cons, Nat.pow_succ', ← Nat.mul_assoc]
      exact Nat.mul_le_mul_right _ (Nat.le_add_right ..)

/-- The list holds decimal digits. -/
def AreDigits (ds : List Nat) : Prop := ∀ d ∈ ds, d < 10

instance (ds : List Nat) : Decidable (AreDigits ds) :=
  inferInstanceAs (Decidable (∀ d ∈ ds, d < 10))

theorem AreDigits.append {as bs : List Nat} (ha : AreDigits as)
    (hb : AreDigits bs) : AreDigits (as ++ bs) := by
  intro d hd
  rcases List.mem_append.mp hd with h | h
  · exact ha d h
  · exact hb d h

theorem areDigits_nil : AreDigits [] := fun _ h => nomatch h

theorem AreDigits.cons {d : Nat} (hd : d < 10) (h : AreDigits ds) :
    AreDigits (d :: ds) := by
  intro x hx
  rcases List.mem_cons.mp hx with rfl | hmem
  · exact hd
  · exact h x hmem

theorem AreDigits.tail {d : Nat} (h : AreDigits (d :: ds)) : AreDigits ds :=
  fun x hx => h x (List.mem_cons_of_mem _ hx)

theorem areDigits_replicate (n : Nat) : AreDigits (List.replicate n 0) := by
  intro d hd
  rw [List.eq_of_mem_replicate hd]
  decide

/-- More digits add less than one unit of the places in front of them. -/
theorem digitsValue_lt_mul (h : AreDigits ds) (v : Nat) :
    digitsValue v ds < (v + 1) * 10 ^ ds.length := by
  induction ds generalizing v with
  | nil => exact Nat.lt_of_lt_of_eq (Nat.lt_succ_self v) (Nat.mul_one _).symm
  | cons d rest ih =>
      have hd : d < 10 := h d (List.mem_cons_self ..)
      have hrest : AreDigits rest :=
        fun x hx => h x (List.mem_cons_of_mem _ hx)
      refine Nat.lt_of_lt_of_le (ih hrest (v * 10 + d)) ?_
      rw [List.length_cons, Nat.pow_succ', ← Nat.mul_assoc]
      exact Nat.mul_le_mul_right _ (by omega)

/-- As many digits as there are spell a number below that power of ten. -/
theorem digitsValue_lt (h : AreDigits ds) :
    digitsValue 0 ds < 10 ^ ds.length := by
  have hlt := digitsValue_lt_mul h 0
  rw [Nat.zero_add, Nat.one_mul] at hlt
  exact hlt

/-- As many digits that have the same value are the same. -/
theorem digits_unique {as bs : List Nat} (ha : AreDigits as)
    (hb : AreDigits bs) (hlength : as.length = bs.length) {v w : Nat}
    (h : digitsValue v as = digitsValue w bs) : v = w ∧ as = bs := by
  induction as generalizing bs v w with
  | nil =>
      obtain rfl := List.eq_nil_of_length_eq_zero hlength.symm
      exact ⟨h, rfl⟩
  | cons a as ih =>
      cases bs with
      | nil => exact nomatch hlength
      | cons b bs =>
          have ha0 := ha a (List.mem_cons_self ..)
          have hb0 := hb b (List.mem_cons_self ..)
          obtain ⟨hv, rfl⟩ := ih ha.tail hb.tail (Nat.succ.inj hlength) h
          have hlast : v * 10 + a = w * 10 + b := hv
          obtain ⟨rfl, rfl⟩ : v = w ∧ a = b := by omega
          exact ⟨rfl, rfl⟩

theorem digitsValue_zeros (n : Nat) (ds : List Nat) :
    digitsValue 0 (List.replicate n 0 ++ ds) = digitsValue 0 ds := by
  induction n with
  | zero => rfl
  | succ n ih => exact ih

theorem digitsValue_replicate (v n : Nat) :
    digitsValue v (List.replicate n 0) = v * 10 ^ n := by
  induction n generalizing v with
  | zero => exact (Nat.mul_one v).symm
  | succ n ih =>
      rw [List.replicate_succ, Nat.pow_succ', ← Nat.mul_assoc]
      exact ih (v * 10)

/-! ## The digits of a number -/

/-- Digits as they are written. -/
def digitChars (ds : List Nat) : List Char := ds.map Nat.digitChar

/-- The value of the digit that a character is. -/
def digitOf (c : Char) : Nat := c.toNat - '0'.toNat

/-- A digit is read as itself. -/
theorem digit?_digitChar {d : Nat} (h : d < 10) :
    Text.digit? (Nat.digitChar d) = some d := by
  have hall : ∀ d < 10, Text.digit? (Nat.digitChar d) = some d := by decide
  exact hall d h

theorem not_isBlank_digitChars (hds : AreDigits ds) {c : Char}
    (hc : c ∈ digitChars ds) : Text.isBlank c = false := by
  obtain ⟨d, hd, rfl⟩ := List.mem_map.mp hc
  have hall : ∀ d < 10, Text.isBlank (Nat.digitChar d) = false := by decide
  exact hall d (hds d hd)

/-- The decimal digits of a number. -/
def decimalDigits (n : Nat) : List Nat := (Nat.toDigits 10 n).map digitOf

theorem digitOf_lt {c : Char} (h : c.isDigit = true) : digitOf c < 10 := by
  rw [Char.isDigit_iff_toNat] at h
  rw [digitOf]
  have h0 : '0'.toNat = 48 := rfl
  have h9 : '9'.toNat = 57 := rfl
  omega

theorem digitChar_digitOf {c : Char} (h : c.isDigit = true) :
    Nat.digitChar (digitOf c) = c := by
  have hlt := digitOf_lt h
  rw [Char.isDigit_iff_toNat] at h
  refine Char.toNat_inj.mp ?_
  rw [Nat.toNat_digitChar_of_lt_ten hlt]
  rw [digitOf]
  have h0 : '0'.toNat = 48 := rfl
  omega

/-- Nothing but a digit is read as a digit. -/
theorem digit?_eq_some {c : Char} {d : Nat} (h : Text.digit? c = some d) :
    d < 10 ∧ c = Nat.digitChar d := by
  rw [Text.digit?] at h
  split at h
  · rename_i hc
    cases h
    have hdigit : c.isDigit = true := by
      simp only [Char.isDigit, Bool.and_eq_true, decide_eq_true_eq]
      exact hc
    exact ⟨digitOf_lt hdigit, (digitChar_digitOf hdigit).symm⟩
  · exact nomatch h

theorem isDigit_of_mem {n : Nat} {c : Char}
    (h : c ∈ Nat.toDigits 10 n) : c.isDigit = true :=
  Nat.isDigit_of_mem_toDigits (by decide) (by decide) h

theorem areDigits_decimalDigits (n : Nat) :
    AreDigits (decimalDigits n) := by
  intro d hd
  obtain ⟨c, hc, rfl⟩ := List.mem_map.mp hd
  exact digitOf_lt (isDigit_of_mem hc)

/-- A number is written with its digits. -/
theorem digitChars_decimalDigits (n : Nat) :
    digitChars (decimalDigits n) = Nat.toDigits 10 n := by
  rw [digitChars, decimalDigits]
  rw [List.map_map]
  refine (List.map_congr_left ?_).trans (List.map_id _)
  intro c hc
  exact digitChar_digitOf (isDigit_of_mem hc)

/-- The digits of a number spell it. -/
theorem digitsValue_decimalDigits (n : Nat) :
    digitsValue 0 (decimalDigits n) = n := by
  have hfold (cs : List Char) (v : Nat) :
      digitsValue v (cs.map digitOf) = Nat.ofDigitChars 10 cs v := by
    induction cs generalizing v with
    | nil => rfl
    | cons c rest ih =>
        rw [Nat.ofDigitChars_cons, Nat.mul_comm 10 v]
        exact ih (v * 10 + digitOf c)
  rw [decimalDigits, hfold]
  exact Nat.ofDigitChars_ten_toDigits

theorem decimalDigits_zero : decimalDigits 0 = [0] := by
  rw [decimalDigits, Nat.toDigits_zero]
  rfl

theorem decimalDigits_ne_nil (n : Nat) : decimalDigits n ≠ [] :=
  fun h => Nat.toDigits_ne_nil (List.map_eq_nil_iff.mp h)

theorem length_decimalDigits (n : Nat) :
    (decimalDigits n).length = (Nat.toDigits 10 n).length :=
  List.length_map ..

theorem length_decimalDigits_pos (n : Nat) : 0 < (decimalDigits n).length :=
  List.length_pos_iff.mpr (decimalDigits_ne_nil n)

theorem length_decimalDigits_le {n k : Nat} (hk : 0 < k) (h : n < 10 ^ k) :
    (decimalDigits n).length ≤ k := by
  rw [length_decimalDigits]
  exact (Nat.length_toDigits_le_iff (by decide) hk).mpr h

/-- A number has as many digits as it must have. -/
theorem pow_length_le {n : Nat} (hn : n ≠ 0) :
    10 ^ ((decimalDigits n).length - 1) ≤ n := by
  refine Nat.not_lt.mp fun hlt => ?_
  rcases Nat.eq_zero_or_pos ((decimalDigits n).length - 1) with h0 | hpos
  · rw [h0, Nat.pow_zero] at hlt
    omega
  · have hle := length_decimalDigits_le hpos hlt
    omega

theorem lt_pow_length (n : Nat) : n < 10 ^ (decimalDigits n).length := by
  have hlt := digitsValue_lt (areDigits_decimalDigits n)
  rw [digitsValue_decimalDigits] at hlt
  exact hlt

theorem digitCount_eq {n : Nat} (hn : n ≠ 0) :
    digitCount n = (decimalDigits n).length := by
  rw [digitCount, if_neg hn, length_decimalDigits]

/-- Only zero is written with a zero in front. -/
theorem head_decimalDigits {n d : Nat} {rest : List Nat} (hn : n ≠ 0)
    (h : decimalDigits n = d :: rest) : d ≠ 0 := by
  intro h0
  have hvalue := digitsValue_decimalDigits n
  have hdigits := areDigits_decimalDigits n
  have hpow := pow_length_le hn
  rw [h] at hvalue hdigits hpow
  rw [h0] at hvalue
  have hrest : AreDigits rest :=
    fun x hx => hdigits x (List.mem_cons_of_mem _ hx)
  have hlt := digitsValue_lt hrest
  rw [List.length_cons, Nat.add_sub_cancel] at hpow
  have heq : digitsValue 0 rest = n := hvalue
  omega

/-- Digits without a superfluous zero in front are those of their value. -/
theorem decimalDigits_digitsValue (hds : AreDigits ds)
    (hfront : ds = [0] ∨ ∃ d rest, ds = d :: rest ∧ d ≠ 0) :
    decimalDigits (digitsValue 0 ds) = ds := by
  rcases hfront with rfl | ⟨d, rest, rfl, hd⟩
  · exact decimalDigits_zero
  · -- both have as many digits as a number of their size must have
    have hlow := mul_pow_le_digitsValue d rest
    have hhigh := digitsValue_lt hds
    have hcons : digitsValue 0 (d :: rest) = digitsValue d rest :=
      congrArg (digitsValue · rest) (Nat.zero_add d)
    rw [← hcons] at hlow
    generalize hn : digitsValue 0 (d :: rest) = n at hlow hhigh
    have hpow : 10 ^ rest.length ≤ n :=
      Nat.le_trans (Nat.le_mul_of_pos_left _ (Nat.pos_of_ne_zero hd)) hlow
    have hn0 : n ≠ 0 :=
      Nat.ne_of_gt (Nat.lt_of_lt_of_le (Nat.pow_pos (by decide)) hpow)
    have hle := (Nat.pow_lt_pow_iff_right (by decide)).mp
      (Nat.lt_of_le_of_lt (pow_length_le hn0) hhigh)
    have hge := (Nat.pow_lt_pow_iff_right (by decide)).mp
      (Nat.lt_of_le_of_lt hpow (lt_pow_length n))
    rw [List.length_cons] at hle
    refine (digits_unique (areDigits_decimalDigits n) hds ?_
      ((digitsValue_decimalDigits n).trans hn.symm)).2
    rw [List.length_cons]
    omega

end RiskExchange.Number
