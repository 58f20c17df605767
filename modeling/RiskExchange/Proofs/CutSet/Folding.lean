import RiskExchange.CutSet.SequenceLogic
import RiskExchange.Proofs.CutSet.TermCode

/-! # Folding — which terms share a code

    The bits that are kept are the remainder modulo `2 ^ 17`, and the range of
    numbers that are taken for basic events is that of six digits. A code can
    be read off its text. So two terms are written alike exactly if they leave
    the same remainder and both or neither have six digits
    (`folded_alike_iff`), and below `2 ^ 17` nothing is lost. -/

namespace RiskExchange.CutSet

/-- The numbers that are taken for basic events are those of six digits. -/
theorem TermClass.of_eq_basicEvent_iff (n : Nat) :
    of n = .basicEvent ↔ (Nat.toDigits 10 n).length = 6 := by
  have hsix := Nat.length_toDigits_le_iff (b := 10) (n := n) (k := 6)
    (by decide) (by decide)
  have hfive := Nat.length_toDigits_le_iff (b := 10) (n := n) (k := 5)
    (by decide) (by decide)
  have hrange : of n = .basicEvent ↔ 100000 ≤ n ∧ n ≤ 999999 := by
    rw [of]
    split_ifs with h
    · exact ⟨fun _ => h, fun _ => rfl⟩
    · exact ⟨fun heq => (nomatch heq), fun hin => absurd hin h⟩
  rw [hrange]
  omega

/-- There are only two classes. -/
theorem TermClass.of_eq_of_iff {a b : Nat} : of a = of b ↔
    ((Nat.toDigits 10 a).length = 6 ↔ (Nat.toDigits 10 b).length = 6) := by
  rw [← of_eq_basicEvent_iff a, ← of_eq_basicEvent_iff b]
  cases of a <;> cases of b <;> decide

namespace TermCode

/-- The bits of a term that are kept are its remainder. -/
theorem payload_ofTerm (n : Nat) : ((ofTerm n).payload : Nat) = n % 2 ^ 17 :=
  Nat.and_two_pow_sub_one_eq_mod n 17

/-- Different codes are written differently. -/
theorem text_inj {c c' : TermCode} : c.text = c'.text ↔ c = c' := by
  constructor
  · intro h
    have hread := parse_text c
    rw [h, parse_text] at hread
    exact (Except.ok.inj hread).symm
  · exact congrArg text

theorem ofTerm_eq_iff {a b : Nat} : ofTerm a = ofTerm b ↔
    TermClass.of a = .of b ∧ a % 2 ^ 17 = b % 2 ^ 17 := by
  rw [← payload_ofTerm a, ← payload_ofTerm b]
  constructor
  · intro h
    exact ⟨congrArg kind h, congrArg (fun c => c.payload.val) h⟩
  · rintro ⟨hkind, hpayload⟩
    exact congrArg₂ mk hkind (Fin.ext hpayload)

/-- Below `2 ^ 17` no bit is lost. -/
theorem eq_of_ofTerm_eq {a b : Nat} (ha : a < 2 ^ 17) (hb : b < 2 ^ 17)
    (h : ofTerm a = ofTerm b) : a = b := by
  have hmod := (ofTerm_eq_iff.mp h).2
  rwa [Nat.mod_eq_of_lt ha, Nat.mod_eq_of_lt hb] at hmod

end TermCode

/-- Lists of terms below `2 ^ 17` are kept apart, since each term is. -/
theorem eq_of_encodeTerms_eq {l m : List Nat} (hl : ∀ a ∈ l, a < 2 ^ 17)
    (hm : ∀ a ∈ m, a < 2 ^ 17) (h : encodeTerms l = encodeTerms m) :
    l = m := by
  induction l generalizing m with
  | nil => exact (List.map_eq_nil_iff.mp h.symm).symm
  | cons a l ih =>
      cases m with
      | nil => exact List.map_eq_nil_iff.mp h
      | cons b m =>
          obtain ⟨ha, hl⟩ := List.forall_mem_cons.mp hl
          obtain ⟨hb, hm⟩ := List.forall_mem_cons.mp hm
          obtain ⟨hhead, htail⟩ := List.cons.inj h
          rw [TermCode.eq_of_ofTerm_eq ha hb hhead, ih hl hm htail]

open TermCode (text_inj ofTerm_eq_iff eq_of_ofTerm_eq)

/-- Two terms are written alike if and only if they agree modulo `2 ^ 17` and
    both or neither have exactly six digits; so terms below `2 ^ 17` are written
    differently. Lists are coded term by term and in order, and different lists
    of terms below `2 ^ 17` are written differently. -/
theorem folded_alike_iff :
    (∀ a b : Nat, (TermCode.ofTerm a).text = (TermCode.ofTerm b).text ↔
      a % 2 ^ 17 = b % 2 ^ 17 ∧
        ((Nat.toDigits 10 a).length = 6 ↔ (Nat.toDigits 10 b).length = 6)) ∧
    (∀ a b : Nat, a < 2 ^ 17 → b < 2 ^ 17 →
      (TermCode.ofTerm a).text = (TermCode.ofTerm b).text → a = b) ∧
    (∀ terms : List Nat, (encodeTerms terms).length = terms.length ∧
      ∀ i : Nat, (encodeTerms terms)[i]? = terms[i]?.map TermCode.ofTerm) ∧
    ∀ l m : List Nat, (∀ a ∈ l, a < 2 ^ 17) → (∀ a ∈ m, a < 2 ^ 17) →
      (encodeTerms l).map (·.text) = (encodeTerms m).map (·.text) → l = m := by
  refine ⟨?_, ?_, ?_, ?_⟩
  · intro a b
    rw [text_inj, ofTerm_eq_iff, TermClass.of_eq_of_iff, and_comm]
  · intro a b ha hb h
    exact eq_of_ofTerm_eq ha hb (text_inj.mp h)
  · intro terms
    exact ⟨List.length_map .., fun i => List.getElem?_map ..⟩
  · intro l m hl hm h
    have hcodes : encodeTerms l = encodeTerms m :=
      (List.map_inj_right fun _ _ => text_inj.mp).mp h
    exact eq_of_encodeTerms_eq hl hm hcodes

/-- A term of seven digits is written like its remainder. The remainder and the
    term before it are kept apart, also in a list. -/
theorem folded_alike_iff_million :
    (TermCode.ofTerm 1000000).text = (TermCode.ofTerm 82496).text ∧
    (TermCode.ofTerm 82496).text ≠ (TermCode.ofTerm 82495).text ∧
    (encodeTerms [0, 82496]).map (·.text)
      ≠ (encodeTerms [0, 82495]).map (·.text) := by
  obtain ⟨halike, hterms, -, hlists⟩ := folded_alike_iff
  refine ⟨(halike 1000000 82496).mpr (by decide), ?_, ?_⟩
  · intro h
    exact absurd (hterms 82496 82495 (by decide) (by decide) h) (by decide)
  · intro h
    exact absurd (hlists [0, 82496] [0, 82495] (by decide) (by decide) h)
      (by decide)

end RiskExchange.CutSet
