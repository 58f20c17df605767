import RiskExchange.Proofs.Disk.Lookup

/-! # Plain paths — relative paths without dots

    A plain path has no dots and no slash at either end. The paths above it are
    plain as well, with fewer of its steps (`Path.Plain.parent`), so the
    directories that are made for it are made above it
    (`Path.Plain.leading_of_directoryOf`). -/

namespace RiskExchange.Disk

variable {path up : String}

/-! ## Slashes -/

namespace Path

theorem splitSlashes_eq_splitOn (s : List Char) :
    splitSlashes s = s.splitOn '/' := by
  induction s with
  | nil => rfl
  | cons c rest ih =>
      rw [splitSlashes, ih, List.splitOn_cons_eq_if_modifyHead]
      cases hs : rest.splitOn '/' with
      | nil => exact absurd hs (List.splitOn_ne_nil '/' rest)
      | cons first others =>
          by_cases hc : c = '/'
          · simp [hc]
          · simp [hc]

/-- There is no slash in what stands between slashes. -/
theorem slash_not_mem {s segment : List Char}
    (h : segment ∈ splitSlashes s) : '/' ∉ segment := by
  induction s generalizing segment with
  | nil =>
      rw [splitSlashes, List.mem_singleton] at h
      rw [h]
      exact List.not_mem_nil
  | cons c rest ih =>
      rw [splitSlashes] at h
      cases hs : splitSlashes rest with
      | nil =>
          rw [splitSlashes_eq_splitOn] at hs
          exact absurd hs (List.splitOn_ne_nil '/' rest)
      | cons first others =>
          rw [hs] at h ih
          by_cases hc : c = '/'
          · simp only [if_pos hc] at h
            rcases List.mem_cons.mp h with rfl | hmem
            · exact List.not_mem_nil
            · exact ih hmem
          · simp only [if_neg hc] at h
            rcases List.mem_cons.mp h with rfl | hmem
            · intro hslash
              rcases List.mem_cons.mp hslash with heq | hin
              · exact hc heq.symm
              · exact ih (List.mem_cons_self ..) hin
            · exact ih (List.mem_cons_of_mem _ hmem)

/-- Segments that are joined are found again. -/
theorem splitSlashes_joinSlashes {parts : List (List Char)}
    (hne : parts ≠ []) (h : ∀ part ∈ parts, '/' ∉ part) :
    splitSlashes (joinSlashes parts) = parts := by
  rw [splitSlashes_eq_splitOn, joinSlashes]
  exact List.splitOn_intercalate '/' h hne

/-- A path that is made of segments has these. -/
theorem segments_ofSegments {first : List Char} {rest : List (List Char)}
    (hfirst : first ≠ []) (h : ∀ part ∈ first :: rest, '/' ∉ part) :
    segments (ofSegments (first :: rest)) = first :: rest := by
  have hof : ofSegments (first :: rest)
      = String.ofList (joinSlashes (first :: rest)) := by
    unfold ofSegments
    split
    · rename_i heq
      exact absurd (List.cons.inj heq).1 hfirst
    · rfl
  rw [segments, hof, String.toList_ofList]
  exact splitSlashes_joinSlashes (List.cons_ne_nil _ _) h

/-! ## Plain paths -/

/-- A relative path without dots and without a slash behind it. -/
structure Plain (path : String) : Prop where
  relative : (segments path).head? ≠ some []
  noDots : ∀ segment ∈ segments path,
    segment ≠ ['.'] ∧ segment ≠ ['.', '.']
  noSlash : (segments path).getLast? ≠ some []

instance (path : String) : Decidable (Plain path) :=
  decidable_of_iff ((segments path).head? ≠ some [] ∧
      (∀ segment ∈ segments path, segment ≠ ['.'] ∧ segment ≠ ['.', '.']) ∧
      (segments path).getLast? ≠ some [])
    ⟨fun h => ⟨h.1, h.2.1, h.2.2⟩,
      fun h => ⟨h.relative, h.noDots, h.noSlash⟩⟩

/-- The first segment of a plain path is a name. -/
theorem Plain.segments_eq (h : Plain path) :
    ∃ first rest, segments path = first :: rest ∧ first ≠ [] := by
  cases hs : segments path with
  | nil =>
      have hnil := splitSlashes_eq_splitOn path.toList
      rw [segments] at hs
      rw [hs] at hnil
      exact absurd hnil.symm (List.splitOn_ne_nil '/' _)
  | cons first rest =>
      refine ⟨first, rest, rfl, ?_⟩
      intro hfirst
      refine h.relative ?_
      rw [hs, hfirst]
      rfl

theorem Plain.steps_ne_nil (h : Plain path) : steps path ≠ [] := by
  obtain ⟨first, rest, hs, hfirst⟩ := h.segments_eq
  rw [steps, hs, List.filter_cons_of_pos (by simpa using hfirst)]
  exact List.cons_ne_nil _ _

theorem Plain.ne_empty (h : Plain path) : path ≠ "" := by
  rintro rfl
  exact h.relative rfl

theorem Plain.start_eq (h : Plain path) (here : Place) :
    start here path = here :=
  if_neg h.relative

/-- The steps of a plain path are names. -/
theorem Plain.isName_of_mem_steps (h : Plain path) {step : String}
    (hstep : step ∈ steps path) : ¬ (step = "." ∨ step = "..") := by
  obtain ⟨segment, hmem, rfl⟩ := List.mem_map.mp hstep
  obtain ⟨h1, h2⟩ := h.noDots segment (List.mem_filter.mp hmem).1
  rintro (heq | heq)
  · exact h1 (String.ofList_injective heq)
  · exact h2 (String.ofList_injective heq)

theorem Plain.endsWithSlash_eq (h : Plain path) :
    endsWithSlash path = false := by
  rw [endsWithSlash]
  split
  · rfl
  · rfl
  · exact beq_false_of_ne h.noSlash

/-! ## The paths above -/

/-- The steps lead to something above what the others lead to. -/
def Above (a b : List String) : Prop := a ≠ [] ∧ a <+: b ∧ a ≠ b

instance (a b : List String) : Decidable (Above a b) :=
  inferInstanceAs (Decidable (_ ∧ _ ∧ _))

/-- What leads above a list of steps leads no further than to the last but
    one. -/
theorem above_concat_iff {a init : List String} {last : String} :
    Above a (init ++ [last]) ↔ a ≠ [] ∧ a <+: init := by
  constructor
  · rintro ⟨hne, hpre, hneq⟩
    rcases List.prefix_concat_iff.mp hpre with heq | hinit
    · exact absurd heq hneq
    · exact ⟨hne, hinit⟩
  · rintro ⟨hne, hinit⟩
    refine ⟨hne, hinit.trans (List.prefix_append ..), ?_⟩
    rintro rfl
    have hlen := hinit.length_le
    rw [List.length_append, List.length_singleton] at hlen
    omega

theorem Plain.steps_eq (h : Plain path) :
    ∃ init last, steps path = init ++ [last] := by
  rcases List.eq_nil_or_concat (steps path) with hnil | ⟨init, last, heq⟩
  · exact absurd hnil h.steps_ne_nil
  · exact ⟨init, last, by rw [heq, List.concat_eq_append]⟩

/-- Segments that are dropped for saying nothing are no names. -/
private theorem filter_dropWhile {parts : List (List Char)}
    (h : ∀ part ∈ parts, part ≠ ['.']) :
    (parts.dropWhile isVoid).filter (· ≠ []) = parts.filter (· ≠ []) := by
  induction parts with
  | nil => rfl
  | cons part rest ih =>
      have hrest := ih (fun part' hp => h part' (List.mem_cons_of_mem _ hp))
      have hdot := h part (List.mem_cons_self ..)
      by_cases hpart : part = []
      · rw [List.dropWhile_cons_of_pos (by simp [isVoid, hpart]), hrest,
          List.filter_cons_of_neg (by simp [hpart])]
      · rw [List.dropWhile_cons_of_neg (by simp [isVoid, hpart, hdot])]

/-- Nothing is trimmed behind a name. -/
private theorem trimEnd_concat {first last : List Char}
    {init : List (List Char)} (h : isVoid last = false) :
    trimEnd (first :: (init ++ [last])) = first :: (init ++ [last]) := by
  rw [trimEnd, List.reverse_append, List.reverse_singleton,
    List.singleton_append, List.dropWhile_cons_of_neg (by simp [h]),
    List.reverse_cons, List.reverse_reverse]

/-- What is trimmed behind a name are segments that say nothing: names stay,
    and one of them is the last segment then. -/
private theorem trimEnd_cons {first : List Char} {init : List (List Char)}
    (hfirst : first ≠ []) (hdots : ∀ part ∈ init, part ≠ ['.']) :
    ∃ kept, trimEnd (first :: init) = first :: kept ∧ kept <+: init ∧
      (first :: kept).getLast? ≠ some [] ∧
      kept.filter (· ≠ []) = init.filter (· ≠ []) := by
  refine ⟨(init.reverse.dropWhile isVoid).reverse, rfl, ?_, ?_, ?_⟩
  · rw [← List.reverse_suffix, List.reverse_reverse]
    exact List.dropWhile_suffix _
  · -- the last of what is kept is the first that the trimming stops at
    have hvoid := List.head?_dropWhile_not isVoid init.reverse
    cases hd : init.reverse.dropWhile isVoid with
    | nil =>
        intro heq
        exact hfirst (Option.some.inj heq)
    | cons part others =>
        rw [hd] at hvoid
        rw [List.reverse_cons, ← List.cons_append, List.getLast?_concat]
        intro heq
        rw [List.head?_cons, Option.some.inj heq] at hvoid
        exact nomatch hvoid
  · rw [List.filter_reverse, filter_dropWhile ?_, List.filter_reverse,
      List.reverse_reverse]
    intro part hp
    exact hdots part (List.mem_reverse.mp hp)

/-- The path above a plain path has its segments but the last, and but those
    before it that say nothing. -/
private theorem Plain.segments_of_parent (h : Plain path)
    (hup : parent? path = some up) {first last : List Char}
    {init : List (List Char)} (hfirst : first ≠ []) (hlast : last ≠ [])
    (hs : segments path = first :: (init ++ [last])) :
    ∃ kept, segments up = first :: kept ∧ kept <+: init ∧
      (first :: kept).getLast? ≠ some [] ∧
      kept.filter (· ≠ []) = init.filter (· ≠ []) := by
  have hmem := h.noDots
  rw [hs] at hmem
  have hdot : last ≠ ['.'] := (hmem last (by simp)).1
  have hdots : ∀ part ∈ init, part ≠ ['.'] :=
    fun part hp => (hmem part (by simp [hp])).1
  obtain ⟨kept, htrim, hpre, hend, hfilter⟩ := trimEnd_cons hfirst hdots
  refine ⟨kept, ?_, hpre, hend, hfilter⟩
  have hup' : up = ofSegments (first :: kept) := by
    rw [parent?, hs, trimEnd_concat (by simp [isVoid, hlast, hdot])] at hup
    cases hi : init ++ [last] with
    | nil => simp at hi
    | cons second others =>
        rw [hi] at hup
        rw [← Option.some.inj hup, ← hi, List.dropLast_concat, htrim]
  rw [hup']
  refine segments_ofSegments hfirst ?_
  intro part hp
  refine slash_not_mem (s := path.toList) ?_
  rw [← segments, hs]
  exact List.cons_subset_cons first
    (List.subset_append_of_subset_left _ hpre.subset) hp

/-- The path above a plain path is empty or plain, and it has all steps but
    the last. -/
theorem Plain.parent (h : Plain path) (hup : parent? path = some up) :
    up = "" ∨ (Plain up ∧ steps up = (steps path).dropLast) := by
  obtain ⟨first, rest, hs, hfirst⟩ := h.segments_eq
  rcases List.eq_nil_or_concat rest with rfl | ⟨init, last, rfl⟩
  · left
    have hone : trimEnd [first] = [first] := rfl
    rw [parent?, hs, hone] at hup
    simp only [if_neg hfirst] at hup
    exact (Option.some.inj hup).symm
  · right
    rw [List.concat_eq_append] at hs
    have hlast : last ≠ [] := by
      intro heq
      refine h.noSlash ?_
      rw [hs, ← List.cons_append, List.getLast?_concat, heq]
    obtain ⟨kept, hsegments, hpre, hend, hfilter⟩ :=
      h.segments_of_parent hup hfirst hlast hs
    refine ⟨⟨?_, ?_, ?_⟩, ?_⟩
    · rw [hsegments]
      intro heq
      exact hfirst (Option.some.inj heq)
    · rw [hsegments]
      intro part hp
      refine h.noDots part ?_
      rw [hs]
      exact List.cons_subset_cons first
        (List.subset_append_of_subset_left _ hpre.subset) hp
    · rw [hsegments]
      exact hend
    · -- empty segments are no steps, so nothing is lost by trimming them
      have hone : [last].filter (· ≠ []) = [last] :=
        List.filter_cons_of_pos (by simpa using hlast)
      have hpos : ∀ l : List (List Char), (first :: l).filter (· ≠ [])
          = first :: l.filter (· ≠ []) :=
        fun l => List.filter_cons_of_pos (by simpa using hfirst)
      rw [steps, steps, hsegments, hs, hpos, hpos, hfilter,
        List.filter_append, hone, ← List.cons_append, List.map_append,
        List.map_singleton, List.dropLast_concat]

/-- The paths that lead to a plain path are plain, and their steps lead to or
    above its own. -/
theorem Plain.of_mem_ancestorsUpTo (n : Nat) (h : Plain path)
    (hup : up ∈ ancestorsUpTo n path) :
    Plain up ∧ steps up <+: steps path := by
  induction n generalizing path with
  | zero => exact nomatch hup
  | succ n ih =>
      rw [ancestorsUpTo] at hup
      by_cases hempty : path = ""
      · rw [if_pos hempty] at hup
        exact nomatch hup
      · rw [if_neg hempty] at hup
        rcases List.mem_cons.mp hup with rfl | hup
        · exact ⟨h, List.prefix_refl _⟩
        · cases hp : parent? path with
          | none =>
              rw [hp] at hup
              exact nomatch hup
          | some next =>
              simp only [hp] at hup
              rcases h.parent hp with rfl | ⟨hnext, hsteps⟩
              · -- the empty path has no path above it
                cases n with
                | zero => exact nomatch hup
                | succ n =>
                    rw [ancestorsUpTo, if_pos rfl] at hup
                    exact nomatch hup
              · obtain ⟨h1, h2⟩ := ih hnext hup
                rw [hsteps] at h2
                exact ⟨h1, h2.trans (List.dropLast_prefix _)⟩

/-- A path above a plain path, for the making of directories: the working
    directory, or a plain path whose steps lead above. -/
def Leading (up path : String) : Prop :=
  up = "." ∨ (Plain up ∧ Above (steps up) (steps path))

theorem Plain.leading_of_parent (h : Plain path) {next : String}
    (hp : parent? path = some next) (hup : up ∈ ancestors next) :
    Leading up path := by
  rcases h.parent hp with rfl | ⟨hnext, hsteps⟩
  · exact nomatch hup
  · obtain ⟨h1, h2⟩ := hnext.of_mem_ancestorsUpTo _ hup
    obtain ⟨init, last, heq⟩ := h.steps_eq
    refine .inr ⟨h1, ?_⟩
    rw [hsteps, heq, List.dropLast_concat] at h2
    rw [heq]
    exact above_concat_iff.mpr ⟨h1.steps_ne_nil, h2⟩

theorem Plain.leading_of_directoryOf (h : Plain path)
    (hup : up ∈ ancestors (directoryOf path)) : Leading up path := by
  have hdot : ancestors "." = ["."] := by decide +kernel
  rw [directoryOf] at hup
  cases hp : parent? path with
  | none =>
      rw [hp] at hup
      simp only [hdot] at hup
      exact .inl (List.mem_singleton.mp hup)
  | some next =>
      simp only [hp] at hup
      by_cases hempty : next = ""
      · rw [if_pos hempty, hdot] at hup
        exact .inl (List.mem_singleton.mp hup)
      · rw [if_neg hempty] at hup
        exact h.leading_of_parent hp hup

/-! ## Two spellings of one path -/

instance (path : String) : Decidable (Usable path) :=
  decidable_of_iff (path.toList.contains '\x00' = false ∧ path ≠ "" ∧
      path.utf8ByteSize ≤ maxPathSize)
    ⟨fun h => ⟨h.1, h.2.1, h.2.2⟩,
      fun h => ⟨h.noNul, h.nonempty, h.short⟩⟩

/-- The path can be used and has the steps of the other one, which may be
    spelled with more slashes or with fewer. -/
def Meets (path other : String) : Prop :=
  Usable path ∧ steps path = steps other

instance (path other : String) : Decidable (Meets path other) :=
  inferInstanceAs (Decidable (_ ∧ _))

end Path
end RiskExchange.Disk
