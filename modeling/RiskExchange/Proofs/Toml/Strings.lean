import Mathlib.Data.List.Infix
import Mathlib.Tactic.IntervalCases
import Mathlib.Tactic.SplitIfs
import RiskExchange.Toml.StringPrinter
import RiskExchange.Toml.StringReader

/-! # Strings — what is written in any of the four forms is read back

    Between double quotes a character stands for itself or is written as an
    escape (`Escapes`), and either reader takes one character of the string at
    a time. Single quotes are chosen only for a text that holds nothing that
    would end them (`Form.of_literal`, `Form.of_multiLiteral`). Quotes at the
    end of a string and the three that close it are told apart by counting:
    there are at most two of the former, and none follows. -/

namespace RiskExchange.Toml

variable {c q : Char} {s e rest more : List Char} {mode : Mode}

/-! ## Escapes -/

/-- In the given mode the text is read as a character, step by step. -/
inductive Escapes (c : Char) : Mode → List Char → Prop where
  | last {mode : Mode} {a : Char}
      (h : escapeStep? a mode = some (.plain, some c)) : Escapes c mode [a]
  | step {mode next : Mode} {a : Char} {s : List Char}
      (h : escapeStep? a mode = some (next, none)) (hs : Escapes c next s) :
      Escapes c mode (a :: s)

theorem hexDigit?_upperHexDigit {k : Nat} (hk : k < 16) :
    hexDigit? (upperHexDigit k) = some k := by
  interval_cases k <;> rfl

theorem charOf?_toNat (c : Char) : charOf? c.toNat = some c := by
  have hvalid : c.toNat.isValidChar := c.valid
  rw [charOf?, dif_pos hvalid]
  rfl

/-- The escape of a control character that has no letter. -/
theorem escapes_code (hc : c.toNat < 0x100) : Escapes c .escape
    ['u', '0', '0', upperHexDigit (c.toNat / 16),
      upperHexDigit (c.toNat % 16)] := by
  have hvalue : c.toNat / 16 * 16 + c.toNat % 16 = c.toNat := by omega
  have hhigh : escapeStep? (upperHexDigit (c.toNat / 16)) (.code 2 0)
      = some (.code 1 (c.toNat / 16), none) := by
    have hdigit := hexDigit?_upperHexDigit (k := c.toNat / 16) (by omega)
    simp [escapeStep?, hdigit]
  have hlow : escapeStep? (upperHexDigit (c.toNat % 16))
      (.code 1 (c.toNat / 16)) = some (.plain, some c) := by
    have hdigit := hexDigit?_upperHexDigit (k := c.toNat % 16) (by omega)
    simp [escapeStep?, hdigit, hvalue, charOf?_toNat]
  exact .step rfl (.step rfl (.step rfl (.step hhigh (.last hlow))))

theorem isPlain_of_not_isControl (h : isControl c = false) (hn : c ≠ '\n') :
    isPlain c = true := by
  by_cases ht : c = '\t'
  · simp [isPlain, ht]
  · simp [isControl, ht, hn] at h
    simp [isPlain, ht]
    omega

/-- Between double quotes a character stands for itself or is escaped. -/
theorem escapedChar_cases (multi : Bool) (c : Char) :
    (escapedChar multi c = [c] ∧ c ≠ '\\' ∧
      (isPlain c = true ∨ (multi = true ∧ c = '\n'))) ∨
    ∃ e, escapedChar multi c = '\\' :: e ∧ Escapes c .escape e := by
  rw [escapedChar]
  split_ifs with h8 ht hn hmulti hf hr hb hcontrol
  · exact .inr ⟨['b'], rfl, .last (h8 ▸ rfl)⟩
  · exact .inr ⟨['t'], rfl, .last (ht ▸ rfl)⟩
  · exact .inl ⟨rfl, hn ▸ by decide, .inr ⟨hmulti, hn⟩⟩
  · exact .inr ⟨['n'], rfl, .last (hn ▸ rfl)⟩
  · exact .inr ⟨['f'], rfl, .last (hf ▸ rfl)⟩
  · exact .inr ⟨['r'], rfl, .last (hr ▸ rfl)⟩
  · exact .inr ⟨['\\'], rfl, .last (by rw [hb]; rfl)⟩
  · refine .inr ⟨_, rfl, escapes_code ?_⟩
    simp [isControl] at hcontrol
    omega
  · rw [Bool.not_eq_true] at hcontrol
    exact .inl ⟨rfl, hb, .inl (isPlain_of_not_isControl hcontrol hn)⟩

/-! ## One character between double quotes -/

theorem readBasic_escapes (h : Escapes c mode e) :
    readBasic mode (e ++ rest) = prepend c (readBasic .plain rest) := by
  induction h with
  | @last mode a h =>
      cases mode with
      | plain => exact nomatch h
      | _ => simp [readBasic, h]
  | @step mode next a e h _ ih =>
      cases mode with
      | plain => exact nomatch h
      | _ => simp [readBasic, h, ih]

/-- What begins an escape is neither a blank nor begins a line break. -/
theorem isSpace_of_escapeStep? {o : Mode × Option Char}
    (h : escapeStep? c .escape = some o) :
    c ≠ '\n' ∧ c ≠ '\r' ∧ isSpace c = false := by
  refine ⟨?_, ?_, ?_⟩
  · rintro rfl
    exact nomatch h
  · rintro rfl
    exact nomatch h
  · rw [Bool.eq_false_iff]
    intro hspace
    rw [isSpace, Bool.or_eq_true, beq_iff_eq, beq_iff_eq] at hspace
    rcases hspace with rfl | rfl
    all_goals exact nomatch h

theorem readMultiBasic_escapes (h : Escapes c mode e) :
    readMultiBasic mode (e ++ rest)
      = prepend c (readMultiBasic .plain rest) := by
  induction h with
  | @last mode a h =>
      cases mode with
      | escape =>
          obtain ⟨hn, hr, hspace⟩ := isSpace_of_escapeStep? h
          simp [readMultiBasic, h, hn, hr, hspace]
      | code left value => simp [readMultiBasic, h]
      | _ => exact nomatch h
  | @step mode next a e h _ ih =>
      cases mode with
      | escape =>
          obtain ⟨hn, hr, hspace⟩ := isSpace_of_escapeStep? h
          simp [readMultiBasic, h, hn, hr, hspace, ih]
      | code left value => simp [readMultiBasic, h, ih]
      | _ => exact nomatch h

theorem readBasic_escape (h : Escapes c .escape e) :
    readBasic .plain ('\\' :: (e ++ rest))
      = prepend c (readBasic .plain rest) := by
  rw [← readBasic_escapes h]
  rfl

theorem readMultiBasic_escape (h : Escapes c .escape e) :
    readMultiBasic .plain ('\\' :: (e ++ rest))
      = prepend c (readMultiBasic .plain rest) := by
  rw [← readMultiBasic_escapes h, readMultiBasic]
  · rfl
  all_goals simp

theorem readBasic_escapedChar (hq : c ≠ '"') :
    readBasic .plain (escapedChar false c ++ rest)
      = prepend c (readBasic .plain rest) := by
  rcases escapedChar_cases false c with ⟨htext, hb, hc⟩ | ⟨e, htext, he⟩
  · have hplain : isPlain c = true := by simpa using hc
    rw [htext]
    simp [readBasic, hq, hb, hplain]
  · rw [htext]
    exact readBasic_escape he

theorem isPlainOrBreak_of_isPlain (h : isPlain c = true ∨ c = '\n') :
    isPlainOrBreak c rest = true := by
  rw [isPlainOrBreak]
  rcases h with h | rfl
  · rw [h]
    rfl
  · rfl

/-- A character stands for itself unless three quotes begin with it. -/
theorem readMultiBasic_plain (hb : c ≠ '\\')
    (hc : isPlainOrBreak c rest = true)
    (hclose : ∀ more, c = '"' → rest ≠ '"' :: '"' :: more) :
    readMultiBasic .plain (c :: rest)
      = prepend c (readMultiBasic .plain rest) := by
  simp [readMultiBasic, hb, hc]

theorem readMultiBasic_escapedChar (hq : c ≠ '"') :
    readMultiBasic .plain (escapedChar true c ++ rest)
      = prepend c (readMultiBasic .plain rest) := by
  rcases escapedChar_cases true c with ⟨htext, hb, hc⟩ | ⟨e, htext, he⟩
  · rw [htext]
    have hplain : isPlainOrBreak c rest = true :=
      isPlainOrBreak_of_isPlain (hc.imp_right And.right)
    exact readMultiBasic_plain hb hplain fun _ h => absurd h hq
  · rw [htext]
    exact readMultiBasic_escape he

/-! ## Quotes at the end -/

/-- Of the quotes that follow three quotes, those before the last three belong
    to the string. -/
theorem closeMulti_quotes {k : Nat} (hk : k ≤ 2)
    (hrest : rest.head? ≠ some q) :
    closeMulti q (List.replicate k q ++ rest) = (List.replicate k q, rest) := by
  rcases rest with _ | ⟨a, rest⟩
  · interval_cases k <;> simp [closeMulti]
  · have ha : a ≠ q := fun h => hrest (congrArg some h)
    interval_cases k
    · cases rest <;> simp [closeMulti, ha]
    · simp [closeMulti, ha]
    · simp [closeMulti]

theorem replicate_append_three (k : Nat) (q : Char) (rest : List Char) :
    List.replicate k q ++ q :: q :: q :: rest
      = q :: q :: q :: (List.replicate k q ++ rest) := by
  induction k with
  | zero => rfl
  | succ k ih =>
      rw [List.replicate_succ, List.cons_append, ih]
      rfl

theorem readMultiBasic_quotes {k : Nat} (hk : k ≤ 2)
    (hrest : rest.head? ≠ some '"') :
    readMultiBasic .plain
        (List.replicate k '"' ++ '"' :: '"' :: '"' :: rest)
      = some (List.replicate k '"', rest) := by
  rw [replicate_append_three, readMultiBasic, closeMulti_quotes hk hrest]
  all_goals simp

theorem escaped_replicate {k run : Nat} (hk : k + run ≤ 2) :
    escaped true 2 run (List.replicate k '"') = List.replicate k '"' := by
  induction k generalizing run with
  | zero => rfl
  | succ k ih =>
      rw [List.replicate_succ, escaped, if_pos rfl, if_pos (by omega),
        ih (by omega)]

theorem escapedChar_append_ne (multi : Bool) (hq : c ≠ '"') :
    escapedChar multi c ++ s ≠ '"' :: more := by
  rcases escapedChar_cases multi c with ⟨htext, -, -⟩ | ⟨e, htext, -⟩
  · rw [htext]
    exact fun h => hq (List.cons.inj h).1
  · rw [htext]
    exact fun h => nomatch (List.cons.inj h).1

/-- Three quotes in a row are met only where the string ends: of its own there
    are two at most, counting those in front. -/
theorem eq_replicate_of_escaped {run : Nat} (hrun : run ≤ 2)
    (h : escaped true 2 run s ++ '"' :: '"' :: '"' :: rest
      = List.replicate (3 - run) '"' ++ more) :
    ∃ k, k + run ≤ 2 ∧ s = List.replicate k '"' := by
  -- each quote of the string takes one from those that are still to be met
  induction s generalizing run with
  | nil => exact ⟨0, by omega, rfl⟩
  | cons c s ih =>
      obtain ⟨left, hleft⟩ : ∃ left, 3 - run = left + 1 := ⟨2 - run, by omega⟩
      rw [hleft, List.replicate_succ, List.cons_append, escaped] at h
      split at h
      next hq =>
        split at h
        next hlt =>
          obtain rfl : left = 3 - (run + 1) := by omega
          obtain ⟨k, hk, rfl⟩ := ih hlt (List.cons.inj h).2
          exact ⟨k + 1, by omega, by rw [hq, List.replicate_succ]⟩
        next => exact nomatch (List.cons.inj h).1
      next hq =>
        rw [List.append_assoc] at h
        exact absurd h (escapedChar_append_ne true hq)

/-- Behind a quote of a string that goes on, two more do not follow. -/
theorem escaped_append_ne_quotes {run : Nat} (hlt : run < 2)
    (hend : ¬ ∃ k, k + run ≤ 2 ∧ '"' :: s = List.replicate k '"') :
    escaped true 2 (run + 1) s ++ '"' :: '"' :: '"' :: rest
      ≠ '"' :: '"' :: more := by
  intro h
  have hquotes : '"' :: '"' :: more
      = List.replicate (3 - (run + 1)) '"'
        ++ (List.replicate run '"' ++ more) := by
    interval_cases run <;> rfl
  rw [hquotes] at h
  obtain ⟨k, hk, rfl⟩ := eq_replicate_of_escaped hlt h
  exact hend ⟨k + 1, by omega, rfl⟩

/-! ## Strings between double quotes -/

/-- The escape of a quote. -/
theorem escapes_quote : Escapes '"' .escape ['"'] := .last rfl

theorem readBasic_quote :
    readBasic .plain ('\\' :: '"' :: rest)
      = prepend '"' (readBasic .plain rest) := readBasic_escape escapes_quote

theorem readMultiBasic_quote :
    readMultiBasic .plain ('\\' :: '"' :: rest)
      = prepend '"' (readMultiBasic .plain rest) :=
  readMultiBasic_escape escapes_quote

theorem readBasic_escaped (s rest : List Char) :
    readBasic .plain (escaped false 0 0 s ++ '"' :: rest)
      = some (s, rest) := by
  induction s with
  | nil => rfl
  | cons c s ih =>
      rw [escaped]
      split
      next hq =>
        rw [if_neg (Nat.lt_irrefl 0), hq, List.cons_append, List.cons_append,
          readBasic_quote, ih]
        rfl
      next hq =>
        rw [List.append_assoc, readBasic_escapedChar hq, ih]
        rfl

theorem readMultiBasic_escaped {run : Nat} (s : List Char) (hrun : run ≤ 2)
    (hrest : rest.head? ≠ some '"') :
    readMultiBasic .plain
        (escaped true 2 run s ++ '"' :: '"' :: '"' :: rest)
      = some (s, rest) := by
  induction s generalizing run with
  | nil => exact readMultiBasic_quotes (k := 0) (by decide) hrest
  | cons c s ih =>
      -- a string that goes on with quotes only is read as a whole, since its
      -- first quote may be the first of three
      by_cases hend : ∃ k, k + run ≤ 2 ∧ c :: s = List.replicate k '"'
      · obtain ⟨k, hk, hs⟩ := hend
        rw [hs, escaped_replicate hk]
        exact readMultiBasic_quotes (by omega) hrest
      · rw [escaped]
        split
        next hq =>
          subst hq
          split
          next hlt =>
            have hopen (more : List Char) (_ : '"' = '"') :
                escaped true 2 (run + 1) s ++ '"' :: '"' :: '"' :: rest
                  ≠ '"' :: '"' :: more := escaped_append_ne_quotes hlt hend
            rw [List.cons_append, readMultiBasic_plain (by decide) rfl hopen,
              ih hlt]
            rfl
          next =>
            rw [List.cons_append, List.cons_append, readMultiBasic_quote,
              ih (by decide)]
            rfl
        next hq =>
          rw [List.append_assoc, readMultiBasic_escapedChar hq, ih (by decide)]
          rfl

/-! ## The form of a string -/

theorem max_le_longestRun (q : Char) (best current : Nat) (s : List Char) :
    max best current ≤ longestRun q best current s := by
  induction s generalizing best current with
  | nil => exact Nat.le_refl _
  | cons c s ih =>
      rw [longestRun]
      split
      · exact Nat.le_trans (by omega) (ih best (current + 1))
      · exact Nat.le_trans (by omega) (ih (max best current) 0)

theorem add_le_longestRun {k : Nat} (h : List.replicate k q <+: s)
    (best current : Nat) : current + k ≤ longestRun q best current s := by
  induction k generalizing s current with
  | zero =>
      exact Nat.le_trans (Nat.le_max_right best current)
        (max_le_longestRun q best current s)
  | succ k ih =>
      obtain ⟨more, rfl⟩ := h
      rw [List.replicate_succ, List.cons_append, longestRun, if_pos rfl]
      exact Nat.le_trans (by omega) (ih (List.prefix_append ..) (current + 1))

/-- As many of a character in a row make the longest run at least that long. -/
theorem le_longestRun {k : Nat} (h : List.replicate k q <:+: s)
    (best current : Nat) : k ≤ longestRun q best current s := by
  induction s generalizing best current with
  | nil =>
      have hk : k = 0 := by simpa using h
      exact hk ▸ Nat.zero_le _
  | cons c s ih =>
      rcases List.infix_cons_iff.mp h with hfront | hlater
      · exact Nat.le_trans (Nat.le_add_left k current)
          (add_le_longestRun hfront best current)
      · rw [longestRun]
        split
        · exact ih hlater ..
        · exact ih hlater ..

theorem Form.of_literal (h : Form.of s = .literal) :
    s ≠ [] ∧ ∀ c ∈ s, isPlain c = true ∧ c ≠ '\'' := by
  constructor
  · rintro rfl
    exact nomatch h
  · intro c hc
    simp only [Form.of] at h
    split_ifs at h with _ hform
    simp at hform
    obtain ⟨⟨hcontrol, hsingles⟩, hnewline⟩ := hform
    refine ⟨isPlain_of_not_isControl (hcontrol c hc) ?_, ?_⟩
    · exact fun hn => hnewline (hn ▸ hc)
    · rintro rfl
      have hone : List.replicate 1 '\'' <:+: s :=
        (List.singleton_infix_iff '\'' s).mpr hc
      have hrun := le_longestRun hone 0 0
      omega

theorem Form.of_multiLiteral (h : Form.of s = .multiLiteral) :
    (∀ c ∈ s, isPlain c = true ∨ c = '\n') ∧
      ¬ List.replicate 3 '\'' <:+: s := by
  simp only [Form.of] at h
  split_ifs at h with _ _ _ hform
  simp at hform
  constructor
  · intro c hc
    by_cases hn : c = '\n'
    · exact .inr hn
    · exact .inl (isPlain_of_not_isControl (hform.1 c hc) hn)
  · intro hthree
    have hrun := le_longestRun hthree 0 0
    omega

/-! ## Strings between single quotes -/

theorem readLiteral_append (hs : ∀ c ∈ s, isPlain c = true ∧ c ≠ '\'') :
    readLiteral (s ++ '\'' :: rest) = some (s, rest) := by
  induction s with
  | nil => rfl
  | cons c s ih =>
      obtain ⟨hc, hs⟩ := List.forall_mem_cons.mp hs
      rw [List.cons_append, readLiteral, if_neg hc.2, if_pos hc.1, ih hs]
      rfl

theorem readMultiLiteral_quotes {k : Nat} (hk : k ≤ 2)
    (hrest : rest.head? ≠ some '\'') :
    readMultiLiteral (List.replicate k '\'' ++ '\'' :: '\'' :: '\'' :: rest)
      = some (List.replicate k '\'', rest) := by
  rw [replicate_append_three, readMultiLiteral, closeMulti_quotes hk hrest]

/-- Three quotes in front stand in the string or close it. -/
theorem replicate_of_append_three
    (h : s ++ q :: q :: q :: rest = q :: q :: q :: more) :
    List.replicate 3 q <:+: s ∨ ∃ k ≤ 2, s = List.replicate k q := by
  match s with
  | [] => exact .inr ⟨0, by decide, rfl⟩
  | [a] =>
      cases h
      exact .inr ⟨1, by decide, rfl⟩
  | [a, b] =>
      cases h
      exact .inr ⟨2, by decide, rfl⟩
  | a :: b :: c :: s =>
      cases h
      exact .inl ⟨[], s, rfl⟩

theorem readMultiLiteral_append (hs : ∀ c ∈ s, isPlain c = true ∨ c = '\n')
    (hthree : ¬ List.replicate 3 '\'' <:+: s)
    (hrest : rest.head? ≠ some '\'') :
    readMultiLiteral (s ++ '\'' :: '\'' :: '\'' :: rest) = some (s, rest) := by
  induction s with
  | nil => exact readMultiLiteral_quotes (k := 0) (by decide) hrest
  | cons c s ih =>
      by_cases hend : ∃ k ≤ 2, c :: s = List.replicate k '\''
      · obtain ⟨k, hk, hs⟩ := hend
        rw [hs]
        exact readMultiLiteral_quotes hk hrest
      · obtain ⟨hc, hs⟩ := List.forall_mem_cons.mp hs
        have hlater := ih hs fun h => hthree (List.infix_cons h)
        rw [List.cons_append, readMultiLiteral,
          if_pos (isPlainOrBreak_of_isPlain hc), hlater]
        · rfl
        · intro more hc hmore
          have hfront : c :: s ++ '\'' :: '\'' :: '\'' :: rest
              = '\'' :: '\'' :: '\'' :: more := by
            rw [List.cons_append, hmore, hc]
          rcases replicate_of_append_three hfront with h | h
          · exact hthree h
          · exact hend h

/-! ## All four forms -/

theorem readString?_double (h : ∀ more, s ≠ '"' :: '"' :: more) :
    readString? ('"' :: s) = readBasic .plain s := by
  rw [readString?]
  · rfl
  · exact fun more hs => h more (List.cons.inj hs).2
  · exact fun more hs => nomatch (List.cons.inj hs).1

theorem readString?_single (h : ∀ more, s ≠ '\'' :: '\'' :: more) :
    readString? ('\'' :: s) = readLiteral s := by
  rw [readString?]
  · rfl
  · exact fun more hs => nomatch (List.cons.inj hs).1
  · exact fun more hs => h more (List.cons.inj hs).2

theorem dropFirstBreak_of_isPlain (hc : isPlain c = true) :
    dropFirstBreak (c :: s) = c :: s := by
  have hn : c ≠ '\n' := by
    rintro rfl
    exact nomatch hc
  have hr : c ≠ '\r' := by
    rintro rfl
    exact nomatch hc
  rw [dropFirstBreak]
  · exact fun more hs => hn (List.cons.inj hs).1
  · exact fun more hs => hr (List.cons.inj hs).1

/-- The line break that may follow three opening quotes is dropped again, and
    without it the text behind them begins with no line break. -/
theorem dropFirstBreak_openMulti
    (h : '\n' ∉ s → ∃ c more, e = c :: more ∧ isPlain c = true) :
    dropFirstBreak ((if s.contains '\n' then ['\n'] else []) ++ e) = e := by
  split
  next => rfl
  next hn =>
    rw [List.contains_iff_mem] at hn
    obtain ⟨c, more, rfl, hc⟩ := h hn
    exact dropFirstBreak_of_isPlain hc

theorem head_escaped (hn : '\n' ∉ s) :
    ∃ c more, escaped true 2 0 s ++ '"' :: rest = c :: more
      ∧ isPlain c = true := by
  cases s with
  | nil => exact ⟨'"', rest, rfl, by decide⟩
  | cons c s =>
      rw [escaped]
      split
      next hq => exact ⟨c, _, rfl, hq ▸ by decide⟩
      next hq =>
        rcases escapedChar_cases true c with ⟨htext, -, hc⟩ | ⟨e, htext, -⟩
        · rw [htext]
          refine ⟨c, _, rfl, hc.resolve_right fun hbreak => hn ?_⟩
          exact hbreak.2 ▸ List.mem_cons_self ..
        · rw [htext]
          exact ⟨'\\', _, rfl, by decide⟩

/-- An escaped string on one line does not begin with a quote, and an empty one
    is not taken for three quotes. -/
theorem escaped_append_ne (hrest : rest.head? ≠ some '"')
    (h : escaped false 0 0 s ++ '"' :: rest = '"' :: '"' :: more) : False := by
  cases s with
  | nil =>
      obtain rfl := (List.cons.inj h).2
      exact hrest rfl
  | cons c s =>
      rw [escaped] at h
      split at h
      next => exact nomatch (List.cons.inj h).1
      next hq =>
        rw [List.append_assoc] at h
        exact escapedChar_append_ne false hq h

/-- A printed string is read as it was, whatever follows it but a quote. -/
theorem readString?_printString (s : List Char)
    (hdouble : rest.head? ≠ some '"') (hsingle : rest.head? ≠ some '\'') :
    readString? (printString s ++ rest) = some (s, rest) := by
  cases h : Form.of s with
  | basic =>
    simp only [printString, h, List.append_assoc]
    refine Eq.trans (readString?_double fun more hmore => ?_)
      (readBasic_escaped s rest)
    exact escaped_append_ne hdouble hmore
  | literal =>
    obtain ⟨hs, hplain⟩ := Form.of_literal h
    simp only [printString, h, List.append_assoc]
    refine Eq.trans (readString?_single fun more hmore => ?_)
      (readLiteral_append hplain)
    obtain ⟨c, s, rfl⟩ := List.exists_cons_of_ne_nil hs
    exact (hplain c (List.mem_cons_self ..)).2 (List.cons.inj hmore).1
  | multiBasic =>
    simp only [printString, h, openMulti, List.append_assoc]
    refine Eq.trans ?_ (readMultiBasic_escaped s (Nat.zero_le 2) hdouble)
    refine congrArg (readMultiBasic .plain) (dropFirstBreak_openMulti ?_)
    exact head_escaped
  | multiLiteral =>
    obtain ⟨hplain, hthree⟩ := Form.of_multiLiteral h
    simp only [printString, h, openMulti, List.append_assoc]
    refine Eq.trans ?_ (readMultiLiteral_append hplain hthree hsingle)
    refine congrArg readMultiLiteral (dropFirstBreak_openMulti fun hn => ?_)
    cases s with
    | nil => exact ⟨_, _, rfl, by decide⟩
    | cons c s =>
        refine ⟨c, _, rfl, (hplain c (List.mem_cons_self ..)).resolve_right ?_⟩
        exact fun hc => hn (hc ▸ List.mem_cons_self ..)

end RiskExchange.Toml
