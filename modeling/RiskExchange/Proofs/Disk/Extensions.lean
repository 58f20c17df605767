import Mathlib.Data.List.TakeWhile
import RiskExchange.Proofs.Disk.PlainPaths

/-! # Extensions — the path with another extension

    A path ends with a name if nothing behind the name says anything. The
    extension is what stands behind the last dot of the name, unless that dot
    is the first character; it is replaced, or put there if there is none
    (`Extended`). A path that does not end with a name stays as it is. -/

namespace RiskExchange.Disk.Path

variable {name front old segment : List Char} {path : String}
  {before after : List (List Char)}

/-! ## What another extension makes of a path -/

/-- Nothing, or a single dot: the segment says nothing behind another one. -/
def SaysNothing (segment : List Char) : Prop := segment = [] ∨ segment = ['.']

/-- Between its slashes the path has these segments, with one behind which
    nothing more is said. -/
def EndsWith (path : String) (before : List (List Char)) (last : List Char)
    (after : List (List Char)) : Prop :=
  path.toList.splitOn '/' = before ++ last :: after ∧
    ∀ segment ∈ after, SaysNothing segment

/-- What has the segments between its slashes. -/
def joined (segments : List (List Char)) : String :=
  String.ofList (List.intercalate ['/'] segments)

/-- The path with another extension. -/
inductive Extended (extension : String) (path : String) : String → Prop where
  /-- The last name has an extension, and another one takes its place. -/
  | replaced {before after : List (List Char)} {stem old : List Char}
      (h : EndsWith path before (stem ++ '.' :: old) after)
      (hold : '.' ∉ old) (hstem : stem ≠ [])
      (hdots : ¬ (stem = ['.'] ∧ (old = [] ∨ after = []))) :
      Extended extension path
        (joined (before ++ [stem ++ '.' :: extension.toList]))
  /-- The last name has none, and gets one. -/
  | added {before after : List (List Char)} {c : Char} {rest : List Char}
      (h : EndsWith path before (c :: rest) after) (hrest : '.' ∉ rest)
      (hdot : ¬ (c = '.' ∧ rest = [])) :
      Extended extension path
        (joined (before ++ [c :: rest ++ '.' :: extension.toList]))
  /-- The old extension goes first, and leaves two dots at the end of the path:
      there is no name any more that could get one. -/
  | dots {before : List (List Char)} {old : List Char}
      (h : EndsWith path before ('.' :: '.' :: old) []) (hold : '.' ∉ old)
      (hne : old ≠ []) :
      Extended extension path (joined (before ++ [['.', '.']]))
  /-- There is no name at the end. -/
  | unnamed {before after : List (List Char)} {last : List Char}
      (h : EndsWith path before last after)
      (hlast : last = ['.', '.'] ∨ before = [] ∧ SaysNothing last) :
      Extended extension path path

/-! ## The last name -/

theorem isVoid_iff : isVoid segment = true ↔ SaysNothing segment := by
  simp [isVoid, SaysNothing]

/-- What is trimmed off says nothing, and what is left ends with a segment that
    says something, or is the first. -/
theorem exists_endsWith (path : String) : ∃ before last after,
    EndsWith path before last after ∧
      trimEnd (segments path) = before ++ [last] ∧
      (SaysNothing last → before = []) := by
  cases hs : segments path with
  | nil =>
      rw [segments, splitSlashes_eq_splitOn] at hs
      exact absurd hs (List.splitOn_ne_nil '/' _)
  | cons first rest =>
      rw [segments, splitSlashes_eq_splitOn] at hs
      obtain ⟨after, hrest, hafter⟩ : ∃ after,
          rest = (rest.reverse.dropWhile isVoid).reverse ++ after ∧
            ∀ segment ∈ after, SaysNothing segment := by
        refine ⟨(rest.reverse.takeWhile isVoid).reverse, ?_, ?_⟩
        · rw [← List.reverse_append, List.takeWhile_append_dropWhile,
            List.reverse_reverse]
        · intro segment hmem
          exact isVoid_iff.mp
            (List.mem_takeWhile_imp (List.mem_reverse.mp hmem))
      have hvoid := List.head?_dropWhile_not isVoid rest.reverse
      rw [trimEnd]
      cases hkept : rest.reverse.dropWhile isVoid with
      | nil =>
          rw [hkept, List.reverse_nil, List.nil_append] at hrest
          exact ⟨[], first, after, ⟨hrest ▸ hs, hafter⟩, rfl, fun _ => rfl⟩
      | cons last others =>
          rw [hkept] at hvoid
          rw [hkept, List.reverse_cons, List.append_assoc] at hrest
          refine ⟨first :: others.reverse, last, after, ⟨?_, hafter⟩, ?_, ?_⟩
          · rw [hs, hrest]
            rfl
          · rw [List.reverse_cons]
            rfl
          · intro hlast
            exact absurd (isVoid_iff.mpr hlast) (Bool.eq_false_iff.mp hvoid)

theorem EndsWith.trimEnd_eq_iff (h : EndsWith path before name after) :
    before ++ [name] = segments path ↔ after = [] := by
  rw [segments, splitSlashes_eq_splitOn, h.1, List.append_right_inj,
    List.cons_inj_right, eq_comm]

/-! ## Its extension -/

/-- What stands before the last dot is left of the name. -/
theorem stem_append (hold : '.' ∉ old) (hfront : front ≠ []) :
    stem (front ++ '.' :: old) = front := by
  have hdrop : ((front ++ '.' :: old).reverse.dropWhile (· ≠ '.')).reverse
      = front ++ ['.'] := by
    rw [List.reverse_append, List.reverse_cons, List.append_assoc,
      List.dropWhile_append_of_pos ?_, List.singleton_append,
      List.dropWhile_cons_of_neg (by simp), List.reverse_cons,
      List.reverse_reverse]
    intro c hc
    refine decide_eq_true ?_
    rintro rfl
    exact hold (List.mem_reverse.mp hc)
  rw [stem, hdrop]
  split
  next h => simp at h
  next h =>
    have hlen := congrArg List.length h
    simp [hfront] at hlen
  next => exact List.dropLast_concat

/-- A name with no dot behind its first character is all left. -/
theorem stem_cons {c : Char} {rest : List Char} (hrest : '.' ∉ rest) :
    stem (c :: rest) = c :: rest := by
  have hdrop : (c :: rest).reverse.dropWhile (· ≠ '.')
      = [c].dropWhile (· ≠ '.') := by
    rw [List.reverse_cons, List.dropWhile_append_of_pos ?_]
    intro d hd
    refine decide_eq_true ?_
    rintro rfl
    exact hrest (List.mem_reverse.mp hd)
  rw [stem, hdrop]
  by_cases hc : c = '.'
  · subst hc
    rfl
  · have hnone : [c].dropWhile (· ≠ '.') = [] :=
      List.dropWhile_cons_of_pos (decide_eq_true hc)
    rw [hnone]
    rfl

/-- A name has a last dot behind its first character, or none there. -/
theorem exists_last_dot (hname : name ≠ []) :
    (∃ front old, name = front ++ '.' :: old ∧ '.' ∉ old ∧ front ≠ []) ∨
      ∃ c rest, name = c :: rest ∧ '.' ∉ rest := by
  cases name with
  | nil => exact absurd rfl hname
  | cons c rest =>
      by_cases hdot : '.' ∈ rest
      · obtain ⟨old, front, heq, hold⟩ :=
          List.eq_append_cons_of_mem (List.mem_reverse.mpr hdot)
        refine .inl ⟨c :: front.reverse, old.reverse, ?_, ?_,
          List.cons_ne_nil _ _⟩
        · have hrest := congrArg List.reverse heq
          rw [List.reverse_reverse, List.reverse_append, List.reverse_cons,
            List.append_assoc] at hrest
          rw [hrest]
          rfl
        · exact fun hmem => hold (List.mem_reverse.mp hmem)
      · exact .inr ⟨c, rest, rfl, hdot⟩

theorem not_isName_iff : isName segment = false ↔
    SaysNothing segment ∨ segment = ['.', '.'] := by
  simp only [isName, SaysNothing, Bool.not_eq_false', Bool.or_eq_true,
    beq_iff_eq]

/-- The path is the one with the extension. -/
theorem withExtension_extended (path extension : String) :
    Extended extension path (withExtension path extension) := by
  obtain ⟨before, name, after, h, htrim, hvoid⟩ := exists_endsWith path
  have hlast : (before ++ [name]).getLast? = some name :=
    List.getLast?_concat
  rw [withExtension, htrim, hlast]
  simp only [h.trimEnd_eq_iff, List.dropLast_concat]
  cases hname : isName name with
  | false =>
      rw [if_pos (by decide)]
      refine .unnamed h ?_
      rcases not_isName_iff.mp hname with hnothing | hdots
      · exact .inr ⟨hvoid hnothing, hnothing⟩
      · exact .inl hdots
  | true =>
      rw [if_neg (by decide)]
      have hmade : ¬ (SaysNothing name ∨ name = ['.', '.']) := by
        rw [← not_isName_iff, hname]
        decide
      rcases exists_last_dot (fun hnil => hmade (.inl (.inl hnil))) with
        ⟨front, old, rfl, hold, hfront⟩ | ⟨c, rest, rfl, hrest⟩
      · simp only [isDotted, stem_append hold hfront, beq_iff_eq]
        split
        next hdots =>
          obtain ⟨rfl, rfl⟩ := hdots
          refine .dots h hold ?_
          rintro rfl
          exact hmade (.inr rfl)
        next hdots =>
          refine .replaced h hold hfront ?_
          rintro ⟨rfl, rfl | rfl⟩
          · exact hmade (.inr rfl)
          · exact hdots ⟨rfl, rfl⟩
      · have hdot : c :: rest ≠ ['.'] := fun heq => hmade (.inl (.inr heq))
        simp only [isDotted, stem_cons hrest, beq_iff_eq]
        rw [if_neg (fun hdots => hdot hdots.1)]
        refine .added h hrest ?_
        rintro ⟨rfl, rfl⟩
        exact hdot rfl

end RiskExchange.Disk.Path
