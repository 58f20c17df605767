import Mathlib.Data.List.TakeWhile
import RiskExchange.Proofs.Text.Unsigned

/-! # Padding — numerals between blanks

    Trimming takes the blanks off both ends of a text and nothing else
    (`exists_padding`, `trim_append`). A numeral holds no blank, so a text from
    which a numeral is left is that numeral with blanks around it
    (`isUnsigned_trim_iff`). -/

namespace RiskExchange.Text

open RiskExchange.Number (AreDigits digitChars not_isBlank_digitChars)

variable {n bound : Nat} {front back s : List Char}

/-! ## Trimming -/

/-- Nothing but blanks. -/
def AllBlank (s : List Char) : Prop := ∀ c ∈ s, isBlank c = true

theorem AllBlank.reverse (h : AllBlank s) : AllBlank s.reverse :=
  fun c hc => h c (List.mem_reverse.mp hc)

theorem allBlank_takeWhile (s : List Char) : AllBlank (s.takeWhile isBlank) :=
  List.all_eq_true.mp List.all_takeWhile

/-- Blanks at the front are gone. -/
theorem trimStart_append (h : AllBlank front) :
    trimStart (front ++ s) = trimStart s :=
  List.dropWhile_append_of_pos h

/-- Blanks at the end stay, unless there is nothing else. -/
theorem trimStart_append_right (h : AllBlank back) : trimStart (s ++ back)
    = if trimStart s = [] then [] else trimStart s ++ back := by
  have hback : back.dropWhile isBlank = [] := List.dropWhile_eq_nil_iff.mpr h
  have hdrop : (s ++ back).dropWhile isBlank = _ := List.dropWhile_append
  simp only [List.isEmpty_iff, hback] at hdrop
  exact hdrop

/-- Blanks at both ends make no difference. -/
theorem trim_append (hf : AllBlank front) (hb : AllBlank back) :
    trim (front ++ s ++ back) = trim s := by
  rw [trim, trim, List.append_assoc, trimStart_append hf,
    trimStart_append_right hb]
  split
  next hnil => rw [hnil]
  next => rw [List.reverse_append, trimStart_append hb.reverse]

/-- A text is what is left of it with blanks around it. -/
theorem exists_padding (s : List Char) : ∃ front back,
    AllBlank front ∧ AllBlank back ∧ s = front ++ trim s ++ back := by
  refine ⟨s.takeWhile isBlank,
    ((trimStart s).reverse.takeWhile isBlank).reverse, allBlank_takeWhile s,
    (allBlank_takeWhile _).reverse, ?_⟩
  have hend : trimStart s = trim s
      ++ ((trimStart s).reverse.takeWhile isBlank).reverse := by
    rw [trim, ← List.reverse_append]
    show _ = (List.takeWhile isBlank _ ++ List.dropWhile isBlank _).reverse
    rw [List.takeWhile_append_dropWhile, List.reverse_reverse]
  rw [List.append_assoc, ← hend]
  exact (List.takeWhile_append_dropWhile ..).symm

/-! ## Numerals -/

/-- The text is a numeral with blanks around it. -/
inductive IsPadded (n : Nat) : List Char → Prop where
  | intro {front s back : List Char} (hf : AllBlank front)
      (h : IsUnsigned n s) (hb : AllBlank back) :
      IsPadded n (front ++ s ++ back)

theorem IsUnsigned.not_isBlank (h : IsUnsigned n s) :
    ∀ c ∈ s, isBlank c = false := by
  intro c hc
  cases h with
  | digits hds hne => exact not_isBlank_digitChars hds hc
  | plus hds hne =>
      rcases List.mem_cons.mp hc with rfl | hc
      · decide
      · exact not_isBlank_digitChars hds hc

theorem isUnsigned_trim_iff : IsUnsigned n (trim s) ↔ IsPadded n s := by
  constructor
  · intro h
    obtain ⟨front, back, hf, hb, hs⟩ := exists_padding s
    rw [hs]
    exact .intro hf h hb
  · rintro ⟨hf, h, hb⟩
    rw [trim_append hf hb, trim_eq_self h.not_isBlank]
    exact h

/-- A number is read between blanks if it is there and within the bound. -/
theorem readUnsigned_trim_eq_ok_iff :
    readUnsigned bound (trim s) = .ok n ↔ IsPadded n s ∧ n ≤ bound := by
  rw [readUnsigned_eq_ok_iff, isUnsigned_trim_iff]

end RiskExchange.Text
