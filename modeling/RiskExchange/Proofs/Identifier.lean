import Mathlib.Logic.Function.Basic
import RiskExchange.Identifier

/-! # Identifiers — a name and its text

    No mark begins another and none begins the name of the top gate, so a text
    has one mark at most, whatever follows it (`splitMark?_eq_some_iff`). Hence
    a name can be read off its text (`ofText?_text`), and the reader, which
    wants something behind the mark, gives back just what is written of any
    other name (`parse_inverse_text`). -/

namespace RiskExchange.Identifier

variable {s : String} {t : Tag} {id : Identifier} {e : ParseError}

/-! ## Marks -/

/-- What follows a mark is the text without it. -/
theorem after?_eq_some_iff {mark s rest : List Char} :
    after? mark s = some rest ↔ s = mark ++ rest := by
  induction mark generalizing s with
  | nil =>
      constructor
      · exact Option.some.inj
      · exact congrArg some
  | cons m mark ih =>
      cases s with
      | nil => exact ⟨fun h => (nomatch h), fun h => (nomatch h)⟩
      | cons c s =>
          rw [after?]
          by_cases h : m = c
          · rw [if_pos h, ih, h]
            exact ⟨congrArg (c :: ·), fun h => (List.cons.inj h).2⟩
          · rw [if_neg h]
            exact ⟨fun h => (nomatch h),
              fun heq => absurd (List.cons.inj heq).1.symm h⟩

/-- No mark begins another. -/
theorem splitMark?_append (t : Tag) (s : List Char) :
    splitMark? (t.mark.toList ++ s) = some (t, s) := by
  cases t <;> rfl

/-- The first mark that is found is the only one that begins the text. -/
theorem splitMark?_eq_some_iff {s rest : List Char} :
    splitMark? s = some (t, rest) ↔ s = t.mark.toList ++ rest := by
  constructor
  · intro h
    obtain ⟨u, -, hu⟩ := List.exists_of_findSome?_eq_some h
    obtain ⟨r, hr, heq⟩ := Option.map_eq_some_iff.mp hu
    cases heq
    exact after?_eq_some_iff.mp hr
  · rintro rfl
    exact splitMark?_append t rest

theorem splitMark?_eq_none_iff {s : List Char} :
    splitMark? s = none ↔ ∀ t : Tag, ¬ t.mark.toList <+: s := by
  constructor
  · rintro h t ⟨rest, rfl⟩
    rw [splitMark?_append] at h
    exact nomatch h
  · intro h
    cases hs : splitMark? s with
    | none => rfl
    | some found =>
        have hsplit := splitMark?_eq_some_iff.mp hs
        exact absurd ⟨found.2, hsplit.symm⟩ (h found.1)

/-- No mark begins the name of the top gate. -/
theorem mark_append_ne_top (t : Tag) (suffix : String) :
    t.mark ++ suffix ≠ "TOP" := by
  intro heq
  have hsplit := splitMark?_append t suffix.toList
  rw [← String.toList_append, heq] at hsplit
  exact nomatch hsplit

/-! ## Names -/

/-- The name that a text is. What follows the mark may be anything. -/
def ofText? (s : String) : Option Identifier :=
  if s = "TOP" then some .top
  else (splitMark? s.toList).map fun (t, suffix) =>
    .tagged t (String.ofList suffix)

theorem ofText?_text (id : Identifier) : ofText? id.text = some id := by
  cases id with
  | top => rfl
  | tagged t suffix =>
      rw [text, ofText?, if_neg (mark_append_ne_top t suffix),
        String.toList_append, splitMark?_append]
      show some (tagged t (String.ofList suffix.toList)) = _
      rw [String.ofList_toList]

/-- Different names are written differently. -/
theorem text_injective : Function.Injective text := by
  intro a b h
  have hread := congrArg ofText? h
  rw [ofText?_text, ofText?_text] at hread
  exact Option.some.inj hread

/-! ## Reading -/

/-- The name that is read from a text is the one that is written so, and it has
    something behind its mark. -/
theorem parse_eq_ok_iff :
    parse s = .ok id ↔ id.text = s ∧ id.suffix? ≠ some "" := by
  constructor
  · intro h
    rw [parse] at h
    split at h
    next htop =>
      cases h
      exact ⟨htop.symm, fun hnone => nomatch hnone⟩
    next =>
      split at h
      · cases h
      · cases h
      next t suffix hne hsplit =>
        cases h
        have hs := splitMark?_eq_some_iff.mp hsplit
        constructor
        · rw [text, ← String.toList_inj, String.toList_append,
            String.toList_ofList, hs]
        · intro hsuffix
          have hnil := congrArg String.toList (Option.some.inj hsuffix)
          rw [String.toList_ofList] at hnil
          exact hne hnil
  · rintro ⟨rfl, h⟩
    cases id with
    | top => rfl
    | tagged t suffix =>
        rw [text, parse, if_neg (mark_append_ne_top t suffix),
          String.toList_append, splitMark?_append]
        cases hs : suffix.toList with
        | nil =>
            have hempty := String.toList_eq_nil_iff.mp hs
            exact absurd (congrArg some hempty) h
        | cons c rest =>
            dsimp only
            rw [← hs, String.ofList_toList]

/-- A text that is no name is reported as it is: for what is missing behind its
    mark if it is a mark, and for its mark if it begins with none. -/
theorem parse_eq_error_iff : parse s = .error e ↔
    (e = .noSuffix s ∧ ∃ t : Tag, s = t.mark) ∨
    (e = .unknownMark s ∧ s ≠ "TOP" ∧
      ∀ t : Tag, ¬ t.mark.toList <+: s.toList) := by
  constructor
  · intro h
    rw [parse] at h
    split at h
    · cases h
    next htop =>
      split at h
      next hnone =>
        cases h
        exact .inr ⟨rfl, htop, splitMark?_eq_none_iff.mp hnone⟩
      next t hsplit =>
        cases h
        have hs := splitMark?_eq_some_iff.mp hsplit
        rw [List.append_nil] at hs
        exact .inl ⟨rfl, t, String.toList_inj.mp hs⟩
      · cases h
  · rintro (⟨rfl, t, rfl⟩ | ⟨rfl, htop, hnone⟩)
    · cases t <;> rfl
    · rw [parse, if_neg htop, splitMark?_eq_none_iff.mpr hnone]

/-- Reading and writing names are inverse. What is read is written as it was;
    the top gate and every name with something behind its mark, whatever it is,
    are read again; the texts that are refused are the marks alone, for want of
    a suffix, and those that begin with no mark and are not the top gate's
    name. No two names are written alike, be there a suffix or not. -/
theorem parse_inverse_text :
    (∀ s id, parse s = .ok id → id.text = s) ∧
    parse top.text = .ok top ∧
    (∀ (t : Tag) (suffix : String), suffix ≠ "" →
      parse (tagged t suffix).text = .ok (tagged t suffix)) ∧
    (∀ s x, parse s = .error (.noSuffix x) ↔ x = s ∧ ∃ t : Tag, s = t.mark) ∧
    (∀ s x, parse s = .error (.unknownMark x) ↔
      x = s ∧ s ≠ "TOP" ∧ ∀ t : Tag, ¬ t.mark.toList <+: s.toList) ∧
    ∀ a b : Identifier, a.text = b.text → a = b := by
  refine ⟨?_, rfl, ?_, ?_, ?_, fun a b h => text_injective h⟩
  · intro s id h
    exact (parse_eq_ok_iff.mp h).1
  · intro t suffix h
    exact parse_eq_ok_iff.mpr ⟨rfl, fun heq => h (Option.some.inj heq)⟩
  · intro s x
    simp [parse_eq_error_iff]
  · intro s x
    simp [parse_eq_error_iff]

/-- A suffix may be what another mark goes on with, or the top gate's name. -/
theorem parse_inverse_text_lookalikes :
    parse "GE7" = .ok (tagged .gate "E7") ∧
    parse "STOP" = .ok (tagged .sequence "TOP") ∧
    (tagged .gate "E7").text = "GE7" := by
  obtain ⟨hread, -, htext, -, -, -⟩ := parse_inverse_text
  have hgate : parse "GE7" = .ok (tagged .gate "E7") :=
    htext .gate "E7" (by decide)
  exact ⟨hgate, htext .sequence "TOP" (by decide), hread _ _ hgate⟩

end RiskExchange.Identifier
