import RiskExchange.CommandLine.Arguments
import RiskExchange.Proofs.Text.Unsigned

/-! # Words — what a command line says, word by word

    Options have names and letters, and some of them values. What words say is
    told by relations of their own (`Letters`, `SaysWord`, `SaysPart`, `Says`),
    in which every option is named. The reader takes in what the words say, one
    item after the other, and nothing else (`readWords_sound`). Whatever words
    say is taken in, unless it is too much for a command, and what is too much
    stays so whatever follows (`readWords_complete`). -/

namespace RiskExchange.CommandLine

variable {scope : Scope} {d d' : Draft} {w v name : String} {f : Flag}
  {ws rest : List String} {s : List Char}

/-! ## What words say -/

/-- What is said by words: more verbosity, a value of an option, or a plain
    word. -/
inductive Item where
  | verbose
  | value (f : Flag) (v : String)
  | plain (w : String)
  deriving DecidableEq, Repr

/-- The options of a scope that have a value, with their names, and with their
    letters if they have one. -/
inductive Takes : Scope → Flag → String → Option Char → Prop where
  | config (scope : Scope) : Takes scope .config "config" (some 'c')
  | output : Takes .convert .output "output" (some 'o')
  | store : Takes .convert .store "store" none
  | indent : Takes .convert .indent "indent" none

/-- The word has no dash in front, or is a dash alone. -/
def IsPlain (w : String) : Prop := w = "-" ∨ w.toList.head? ≠ some '-'

/-- What letters behind one dash say. The last of them may be an option whose
    value is the next word. -/
inductive Letters (scope : Scope) :
    List Char → List Item → Option Flag → Prop where
  | nothing : Letters scope [] [] none
  | verbose {s : List Char} {is : List Item} {f : Option Flag}
      (h : Letters scope s is f) :
      Letters scope ('v' :: s) (.verbose :: is) f
  | awaits {f : Flag} {name : String} {c : Char}
      (hf : Takes scope f name (some c)) : Letters scope [c] [] (some f)
  | equals {f : Flag} {name : String} {c : Char}
      (hf : Takes scope f name (some c)) (v : List Char) :
      Letters scope (c :: '=' :: v) [.value f (String.ofList v)] none
  | attached {f : Flag} {name : String} {c : Char} {v : List Char}
      (hf : Takes scope f name (some c)) (hne : v ≠ [])
      (hv : v.head? ≠ some '=') :
      Letters scope (c :: v) [.value f (String.ofList v)] none

/-- What a word with a dash in front says. It may be an option whose value is
    the next word. -/
inductive SaysWord (scope : Scope) :
    String → List Item → Option Flag → Prop where
  | letters {s : List Char} {is : List Item} {waiting : Option Flag}
      (hne : s ≠ []) (h : Letters scope s is waiting) :
      SaysWord scope (String.ofList ('-' :: s)) is waiting
  | verbose : SaysWord scope "--verbose" [.verbose] none
  | name {f : Flag} {name : String} {letter : Option Char}
      (hf : Takes scope f name letter) :
      SaysWord scope ("--" ++ name) [] (some f)
  | nameWithValue {f : Flag} {name : String} {letter : Option Char}
      (hf : Takes scope f name letter) (v : String) :
      SaysWord scope ("--" ++ name ++ "=" ++ v) [.value f v] none

/-- What is said by an option, with its value in a word of its own or without
    one, or by a word that is plain, which has a meaning behind a command's name
    only. -/
inductive SaysPart (scope : Scope) : List String → List Item → Prop where
  | option {w : String} {is : List Item} (h : SaysWord scope w is none) :
      SaysPart scope [w] is
  | optionNext {w v : String} {is : List Item} {f : Flag}
      (h : SaysWord scope w is (some f)) (hv : IsPlain v) :
      SaysPart scope [w, v] (is ++ [.value f v])
  | plain {w : String} (hscope : scope ≠ .top) (hw : IsPlain w) :
      SaysPart scope [w] [.plain w]

/-- What words say, part by part. Behind two dashes all of them are plain. -/
inductive Says (scope : Scope) : List String → List Item → Prop where
  | nothing : Says scope [] []
  | part {ws ws' : List String} {is js : List Item}
      (h : SaysPart scope ws is) (hrest : Says scope ws' js) :
      Says scope (ws ++ ws') (is ++ js)
  | dashes (hscope : scope ≠ .top) (ws : List String) :
      Says scope ("--" :: ws) (ws.map .plain)

/-! ## Drafts -/

namespace Draft

/-- The draft with one item more. -/
def said (d : Draft) : Item → Draft
  | .verbose => d.addVerbose
  | .value f v => d.addValue f v
  | .plain w => d.addPlain w

/-- The draft with more items. -/
def saidAll (d : Draft) (is : List Item) : Draft := is.foldl said d

theorem saidAll_append (d : Draft) (is js : List Item) :
    d.saidAll (is ++ js) = (d.saidAll is).saidAll js :=
  List.foldl_append

/-- The second draft has all that the first has, and perhaps more behind it. -/
structure Grows (d d' : Draft) : Prop where
  configs : d.configs <+: d'.configs
  outputs : d.outputs <+: d'.outputs
  stores : d.stores <+: d'.stores
  indents : d.indents <+: d'.indents
  values : d.values <+: d'.values

theorem grows_said (d : Draft) (i : Item) : d.Grows (d.said i) := by
  cases i with
  | verbose => constructor <;> exact List.prefix_rfl
  | plain w =>
      constructor <;>
        first | exact List.prefix_rfl | exact List.prefix_append ..
  | value f v =>
      cases f <;> constructor <;>
        first | exact List.prefix_rfl | exact List.prefix_append ..

/-- What is asked of lists of one word, and refuses longer ones, is kept by what
    is in front. -/
theorem ok_of_front {p : List String → Bool} (hnil : p [] = true)
    (hlong : ∀ a b more, p (a :: b :: more) = false) {l l' : List String}
    (hl : l <+: l') (h : p l' = true) : p l = true := by
  obtain ⟨more, rfl⟩ := hl
  match l, more with
  | [], _ => exact hnil
  | [_], [] => exact h
  | [_], _ :: _ | _ :: _ :: _, _ => exact nomatch (hlong ..).symm.trans h

theorem onePath_of_front {l l' : List String} :
    l <+: l' → onePath l' = true → onePath l = true :=
  ok_of_front rfl fun _ _ _ => rfl

theorem oneNumber_of_front {l l' : List String} :
    l <+: l' → oneNumber l' = true → oneNumber l = true :=
  ok_of_front rfl fun _ _ _ => rfl

theorem plainOk_of_front {l l' : List String} (hl : l <+: l')
    (h : plainOk scope l' = true) : plainOk scope l = true := by
  cases scope with
  | top =>
      obtain rfl := List.isEmpty_iff.mp h
      rw [List.prefix_nil.mp hl]
      rfl
  | convert => exact onePath_of_front hl h
  | encode =>
      obtain ⟨more, rfl⟩ := hl
      rw [plainOk, List.all_append, Bool.and_eq_true] at h
      exact h.1

/-- A draft in which something is wrong stays so. -/
theorem Grows.ok (hd : d.Grows d') (h : d'.ok scope = true) :
    d.ok scope = true := by
  simp only [Draft.ok, Bool.and_eq_true] at h ⊢
  obtain ⟨⟨⟨⟨hconfigs, houtputs⟩, hstores⟩, hindents⟩, hvalues⟩ := h
  exact ⟨⟨⟨⟨onePath_of_front hd.configs hconfigs,
    onePath_of_front hd.outputs houtputs⟩,
    onePath_of_front hd.stores hstores⟩,
    oneNumber_of_front hd.indents hindents⟩,
    plainOk_of_front hd.values hvalues⟩

theorem ok_of_saidAll {is : List Item} (h : (d.saidAll is).ok scope = true) :
    d.ok scope = true := by
  induction is generalizing d with
  | nil => exact h
  | cons i rest ih => exact (d.grows_said i).ok (ih h)

end Draft

/-! ## Options and their values -/

theorem Takes.takesValue {letter : Option Char}
    (h : Takes scope f name letter) : f.takesValue = true := by
  cases h <;> rfl

theorem Takes.find_letter {c : Char} (h : Takes scope f name (some c)) :
    scope.flags.find? (·.letter? == some c) = some f := by
  cases h with
  | config => cases scope <;> rfl
  | output => rfl

theorem Takes.find_long {letter : Option Char}
    (h : Takes scope f name letter) :
    scope.flags.find? (·.long == name) = some f := by
  cases h with
  | config => cases scope <;> decide
  | output | store | indent => decide

/-- An option that does not have a value is about verbosity, or ends the
    reading. -/
theorem Flag.eq_of_not_takesValue (h : f.takesValue ≠ true) :
    f = .verbose ∨ f = .help ∨ f = .version := by
  cases f <;> simp_all [takesValue]

theorem takes_of_mem (hf : f ∈ scope.flags) (hv : f.takesValue = true) :
    Takes scope f f.long f.letter? := by
  cases scope with
  | top =>
      obtain rfl : f = .config := by
        simp only [Scope.flags, List.mem_cons, List.not_mem_nil] at hf
        rcases hf with rfl | rfl | rfl | rfl | hf
        all_goals first | rfl | exact absurd hv (by decide) | exact hf.elim
      exact .config .top
  | encode =>
      obtain rfl : f = .config := by
        simp only [Scope.flags, List.mem_cons, List.not_mem_nil] at hf
        rcases hf with rfl | rfl | rfl | hf
        all_goals first | rfl | exact absurd hv (by decide) | exact hf.elim
      exact .config .encode
  | convert =>
      cases f with
      | config => exact .config .convert
      | output => exact .output
      | store => exact .store
      | indent => exact .indent
      | verbose | help | version => exact absurd hv (by decide)

/-! ## Letters -/

/-- What one sign does to a draft in which nothing is wrong. -/
theorem applySigns_cons_eq_ok {sign : Sign} {signs : List Sign}
    {r : Draft × Option Flag} :
    applySigns scope d (sign :: signs) = .ok r ↔ d.ok scope = true ∧
      match sign with
      | .unknown => False
      | .flag f _ => f ≠ .help ∧ f ≠ .version ∧
          applySigns scope d.addVerbose signs = .ok r
      | .valued f (some v) => (d.addValue f v).ok scope = true ∧
          applySigns scope (d.addValue f v) signs = .ok r
      | .valued f none => r = (d, some f) := by
  rw [applySigns.eq_def]
  cases hok : d.ok scope with
  | false => simp [hok]
  | true =>
      match sign with
      | .unknown => simp [hok]
      | .flag f long => cases f <;> simp [hok]
      | .valued f none => simp [hok, eq_comm]
      | .valued f (some v) =>
          cases hv : (d.addValue f v).ok scope <;> simp [hok, hv]

/-- The option of a letter. -/
theorem Scope.option_of_letter {c : Char}
    (h : scope.flags.find? (·.letter? == some c) = some f) :
    Takes scope f f.long (some c) ∨ (f = .verbose ∧ c = 'v') ∨ f = .help ∨
      f = .version := by
  have hmem := List.mem_of_find?_eq_some h
  have hletter : f.letter? = some c := by simpa using List.find?_some h
  by_cases hv : f.takesValue = true
  · have htakes := takes_of_mem hmem hv
    rw [hletter] at htakes
    exact .inl htakes
  · rcases Flag.eq_of_not_takesValue hv with rfl | rfl | rfl
    · exact .inr (.inl ⟨rfl, (Option.some.inj hletter).symm⟩)
    · exact .inr (.inr (.inl rfl))
    · exact .inr (.inr (.inr rfl))

theorem Scope.find_verbose (scope : Scope) :
    scope.flags.find? (·.letter? == some 'v') = some .verbose := by
  cases scope <;> rfl

theorem attached_of_ne (hne : s ≠ []) (hs : s.head? ≠ some '=') :
    attached s = some (String.ofList s) := by
  unfold attached
  split
  next => exact absurd rfl hne
  next => exact absurd rfl hs
  next => rfl

theorem eq_nil_of_attached (h : attached s = none) : s = [] := by
  unfold attached at h
  split at h
  next => rfl
  next => exact nomatch h
  next => exact nomatch h

/-- The value that is said by an option's letter and what follows it. -/
theorem letters_of_attached {c : Char} (hf : Takes scope f name (some c))
    {rest : List Char} (h : attached rest = some v) :
    Letters scope (c :: rest) [.value f v] none := by
  by_cases hne : rest = []
  · rw [hne] at h
    exact nomatch h
  · by_cases hs : rest.head? = some '='
    · obtain ⟨v', rfl⟩ := List.head?_eq_some_iff.mp hs
      cases h
      exact .equals hf v'
    · rw [attached_of_ne hne hs] at h
      cases h
      exact .attached hf hne hs

/-- The signs of letters are taken in one by one, up to an option whose value is
    in the next word. -/
theorem letters_of_applySigns {waiting : Option Flag}
    (h : applySigns scope d (readLetters scope s) = .ok (d', waiting)) :
    ∃ is, Letters scope s is waiting ∧ d' = d.saidAll is := by
  induction s generalizing d with
  | nil =>
      cases h
      exact ⟨[], .nothing, rfl⟩
  | cons c rest ih =>
      rw [readLetters] at h
      split at h
      next => exact (applySigns_cons_eq_ok.mp h).2.elim
      next f hf =>
        rcases Scope.option_of_letter hf with htakes | ⟨rfl, rfl⟩ | rfl | rfl
        · rw [if_pos htakes.takesValue] at h
          obtain ⟨-, h⟩ := applySigns_cons_eq_ok.mp h
          cases hvalue : attached rest with
          | none =>
              obtain rfl := eq_nil_of_attached hvalue
              cases h
              exact ⟨[], .awaits htakes, rfl⟩
          | some v =>
              rw [hvalue] at h
              cases h.2
              exact ⟨_, letters_of_attached htakes hvalue, rfl⟩
        · obtain ⟨-, -, -, h⟩ := applySigns_cons_eq_ok.mp h
          obtain ⟨is, hletters, rfl⟩ := ih h
          exact ⟨_, .verbose hletters, rfl⟩
        · exact absurd rfl (applySigns_cons_eq_ok.mp h).2.1
        · exact absurd rfl (applySigns_cons_eq_ok.mp h).2.2.1

/-- Whatever letters say is taken in, if nothing is wrong with it. -/
theorem Letters.applySigns {is : List Item} {waiting : Option Flag}
    (h : Letters scope s is waiting) (hok : (d.saidAll is).ok scope = true) :
    applySigns scope d (readLetters scope s) = .ok (d.saidAll is, waiting) := by
  induction h generalizing d with
  | nothing => rfl
  | @verbose s is waiting _ ih =>
      rw [readLetters, scope.find_verbose]
      exact applySigns_cons_eq_ok.mpr ⟨Draft.ok_of_saidAll hok,
        by decide, by decide, ih hok⟩
  | awaits hf =>
      rw [readLetters, hf.find_letter]
      dsimp only
      rw [if_pos hf.takesValue]
      exact applySigns_cons_eq_ok.mpr ⟨hok, rfl⟩
  | equals hf v =>
      rw [readLetters, hf.find_letter]
      dsimp only
      rw [if_pos hf.takesValue]
      exact applySigns_cons_eq_ok.mpr ⟨Draft.ok_of_saidAll hok, hok, rfl⟩
  | attached hf hne hv =>
      rw [readLetters, hf.find_letter]
      dsimp only
      rw [if_pos hf.takesValue, attached_of_ne hne hv]
      exact applySigns_cons_eq_ok.mpr ⟨Draft.ok_of_saidAll hok, hok, rfl⟩

/-! ## Names -/

theorem splitEquals_of_not_mem (h : '=' ∉ s) : splitEquals s = (s, none) := by
  induction s with
  | nil => rfl
  | cons c rest ih =>
      rw [List.mem_cons, not_or] at h
      rw [splitEquals, if_neg (Ne.symm h.1), ih h.2]

theorem splitEquals_append (h : '=' ∉ s) (v : List Char) :
    splitEquals (s ++ '=' :: v) = (s, some v) := by
  induction s with
  | nil => rfl
  | cons c rest ih =>
      rw [List.mem_cons, not_or] at h
      rw [List.cons_append, splitEquals, if_neg (Ne.symm h.1), ih h.2]

/-- A text is put together again from the parts around its first `=`. -/
theorem eq_of_splitEquals {name : List Char} {value : Option (List Char)}
    (h : splitEquals s = (name, value)) :
    s = name ++ (value.map ('=' :: ·)).getD [] := by
  induction s generalizing name with
  | nil =>
      cases h
      rfl
  | cons c rest ih =>
      rw [splitEquals] at h
      split at h
      next hc =>
        cases h
        rw [hc]
        rfl
      next =>
        cases h
        exact congrArg (c :: ·) (ih rfl)

theorem Takes.not_mem {letter : Option Char} (h : Takes scope f name letter) :
    '=' ∉ name.toList := by
  cases h <;> decide

theorem Takes.toList_ne {letter : Option Char} (h : Takes scope f name letter) :
    name.toList ≠ [] := by
  cases h <;> decide

theorem Takes.readLong {letter : Option Char}
    (h : Takes scope f name letter) :
    readLong scope name.toList = .valued f none := by
  rw [CommandLine.readLong, splitEquals_of_not_mem h.not_mem]
  dsimp only
  rw [String.ofList_toList, h.find_long]
  exact if_pos h.takesValue

theorem Takes.readLong_value {letter : Option Char}
    (h : Takes scope f name letter) (v : String) :
    CommandLine.readLong scope (name.toList ++ '=' :: v.toList)
      = .valued f (some v) := by
  rw [CommandLine.readLong, splitEquals_append h.not_mem]
  dsimp only
  rw [String.ofList_toList, h.find_long]
  dsimp only
  rw [if_pos h.takesValue, Option.map_some, String.ofList_toList]

theorem readLong_verbose (scope : Scope) :
    readLong scope "verbose".toList = .flag .verbose true := by
  cases scope <;> decide

theorem toList_name (name : String) :
    ("--" ++ name).toList = '-' :: '-' :: name.toList := by
  rw [String.toList_append]
  rfl

theorem toList_nameWithValue (name v : String) :
    ("--" ++ name ++ "=" ++ v).toList
      = '-' :: '-' :: (name.toList ++ '=' :: v.toList) := by
  rw [String.toList_append, String.toList_append, toList_name,
    List.append_assoc]
  rfl

/-- What a name behind two dashes says. -/
theorem word_of_readLong {waiting : Option Flag}
    (hw : w.toList = '-' :: '-' :: s)
    (h : applySigns scope d [readLong scope s] = .ok (d', waiting)) :
    ∃ is, SaysWord scope w is waiting ∧ d' = d.saidAll is := by
  rw [readLong] at h
  rcases hs : splitEquals s with ⟨name, value⟩
  rw [hs] at h
  obtain rfl := eq_of_splitEquals hs
  dsimp only at h
  split at h
  next => exact (applySigns_cons_eq_ok.mp h).2.elim
  next f hf =>
    have hlong : f.long = String.ofList name := by
      simpa using List.find?_some hf
    obtain rfl : name = f.long.toList := by
      rw [hlong, String.toList_ofList]
    split at h
    next hv =>
      have htakes := takes_of_mem (List.mem_of_find?_eq_some hf) hv
      obtain ⟨-, h⟩ := applySigns_cons_eq_ok.mp h
      cases value with
      | none =>
          obtain rfl : w = "--" ++ f.long := String.toList_inj.mp <| by
            rw [hw, toList_name, Option.map_none, Option.getD_none,
              List.append_nil]
          cases h
          exact ⟨[], .name htakes, rfl⟩
      | some v =>
          obtain rfl : w = "--" ++ f.long ++ "=" ++ String.ofList v :=
            String.toList_inj.mp <| by
              rw [hw, toList_nameWithValue, String.toList_ofList]
              rfl
          cases h.2
          exact ⟨_, .nameWithValue htakes _, rfl⟩
    next hv =>
      split at h
      next => exact (applySigns_cons_eq_ok.mp h).2.elim
      next hvalue =>
        obtain ⟨-, hhelp, hversion, hdone⟩ := applySigns_cons_eq_ok.mp h
        obtain rfl : f = .verbose := by
          rcases Flag.eq_of_not_takesValue hv with hf | hf | hf
          · exact hf
          · exact absurd hf hhelp
          · exact absurd hf hversion
        cases value with
        | none =>
            obtain rfl : w = "--verbose" := String.toList_inj.mp hw
            cases hdone
            exact ⟨_, .verbose, rfl⟩
        | some v => exact absurd rfl hvalue

/-! ## Words -/

theorem Word.of_long (hw : w.toList = '-' :: '-' :: s) (hne : s ≠ []) :
    Word.of scope w = .signs [readLong scope s] := by
  obtain ⟨c, s, rfl⟩ := List.exists_cons_of_ne_nil hne
  rw [Word.of, hw]
  rfl

theorem Word.of_letters {c : Char} (hw : w.toList = '-' :: c :: s)
    (hc : c ≠ '-') :
    Word.of scope w = .signs (readLetters scope (c :: s)) := by
  rw [Word.of, hw]
  split
  next h => exact absurd (List.cons.inj (List.cons.inj h).2).1 hc
  next h => exact absurd (List.cons.inj (List.cons.inj h).2).1 hc
  next h =>
    cases h
    rfl
  next h => exact absurd rfl (h c s)

theorem Word.of_plain (hw : IsPlain w) : Word.of scope w = .plain := by
  rcases hw with rfl | hw
  · rfl
  · rw [Word.of]
    split
    next h => exact absurd (congrArg List.head? h) hw
    next h => exact absurd (congrArg List.head? h) hw
    next h => exact absurd (congrArg List.head? h) hw
    next => rfl

/-- A word is plain, or two dashes, or has a name behind two dashes, or letters
    behind one. -/
theorem Word.of_cases (scope : Scope) (w : String) :
    (IsPlain w ∧ Word.of scope w = .plain) ∨
    (w = "--" ∧ Word.of scope w = .endOfOptions) ∨
    (∃ s, w.toList = '-' :: '-' :: s ∧
      Word.of scope w = .signs [readLong scope s]) ∨
    ∃ c s, w.toList = '-' :: c :: s ∧
      Word.of scope w = .signs (readLetters scope (c :: s)) := by
  have hplain (h : IsPlain w) : IsPlain w ∧ Word.of scope w = .plain :=
    ⟨h, Word.of_plain h⟩
  by_cases hhead : w.toList.head? = some '-'
  · obtain ⟨s, hw⟩ := List.head?_eq_some_iff.mp hhead
    match s with
    | [] => exact .inl (hplain (.inl (String.toList_inj.mp hw)))
    | c :: s =>
        by_cases hc : c = '-'
        · subst hc
          match s with
          | [] =>
              obtain rfl : w = "--" := String.toList_inj.mp hw
              exact .inr (.inl ⟨rfl, rfl⟩)
          | c :: s =>
              exact .inr (.inr (.inl
                ⟨_, hw, Word.of_long hw (List.cons_ne_nil _ _)⟩))
        · exact .inr (.inr (.inr ⟨c, s, hw, Word.of_letters hw hc⟩))
  · exact .inl (hplain (.inr hhead))

theorem isPlain_of_word (h : Word.of scope w = .plain) : IsPlain w := by
  rcases Word.of_cases scope w with
    ⟨hplain, -⟩ | ⟨-, hw⟩ | ⟨s, -, hw⟩ | ⟨c, s, -, hw⟩
  · exact hplain
  · exact nomatch hw.symm.trans h
  · exact nomatch hw.symm.trans h
  · exact nomatch hw.symm.trans h

theorem eq_dashes_of_word (h : Word.of scope w = .endOfOptions) :
    w = "--" := by
  rcases Word.of_cases scope w with
    ⟨-, hw⟩ | ⟨hdashes, -⟩ | ⟨s, -, hw⟩ | ⟨c, s, -, hw⟩
  · exact nomatch hw.symm.trans h
  · exact hdashes
  · exact nomatch hw.symm.trans h
  · exact nomatch hw.symm.trans h

/-- The signs of a word are taken in as the word says. -/
theorem says_of_applySigns {signs : List Sign} {waiting : Option Flag}
    (hw : Word.of scope w = .signs signs)
    (h : applySigns scope d signs = .ok (d', waiting)) :
    ∃ is, SaysWord scope w is waiting ∧ d' = d.saidAll is := by
  rcases Word.of_cases scope w with
    ⟨-, hof⟩ | ⟨-, hof⟩ | ⟨s, hs, hof⟩ | ⟨c, s, hs, hof⟩
  · exact nomatch hof.symm.trans hw
  · exact nomatch hof.symm.trans hw
  · cases hof.symm.trans hw
    exact word_of_readLong hs h
  · cases hof.symm.trans hw
    obtain ⟨is, hletters, hd⟩ := letters_of_applySigns h
    obtain rfl : w = String.ofList ('-' :: c :: s) := by
      rw [← hs, String.ofList_toList]
    exact ⟨is, .letters (List.cons_ne_nil _ _) hletters, hd⟩

theorem Letters.head_ne {c : Char} {is : List Item} {waiting : Option Flag}
    (h : Letters scope (c :: s) is waiting) : c ≠ '-' := by
  have htakes {f : Flag} {name : String}
      (hf : Takes scope f name (some c)) : c ≠ '-' := by
    cases hf <;> decide
  cases h with
  | verbose => decide
  | awaits hf | equals hf | attached hf => exact htakes hf

/-- Whatever a word says is taken in, if nothing is wrong with it. -/
theorem SaysWord.applySigns {is : List Item} {waiting : Option Flag}
    (h : SaysWord scope w is waiting)
    (hok : (d.saidAll is).ok scope = true) :
    ∃ signs, Word.of scope w = .signs signs ∧
      applySigns scope d signs = .ok (d.saidAll is, waiting) := by
  have hd := Draft.ok_of_saidAll hok
  cases h with
  | @letters s _ _ hne h =>
      obtain ⟨c, s, rfl⟩ := List.exists_cons_of_ne_nil hne
      exact ⟨_, Word.of_letters String.toList_ofList h.head_ne,
        h.applySigns hok⟩
  | verbose =>
      refine ⟨_, Word.of_long (toList_name "verbose") (by decide), ?_⟩
      rw [readLong_verbose]
      exact applySigns_cons_eq_ok.mpr ⟨hd, by decide, by decide, rfl⟩
  | @name f name letter hf =>
      refine ⟨_, Word.of_long (toList_name name) hf.toList_ne, ?_⟩
      rw [hf.readLong]
      exact applySigns_cons_eq_ok.mpr ⟨hd, rfl⟩
  | @nameWithValue f name letter hf v =>
      refine ⟨_, Word.of_long (toList_nameWithValue name v) (by simp), ?_⟩
      rw [hf.readLong_value]
      exact applySigns_cons_eq_ok.mpr ⟨hd, hok, rfl⟩

theorem SaysWord.head {is : List Item} {waiting : Option Flag}
    (h : SaysWord scope w is waiting) : w.toList.head? = some '-' := by
  cases h with
  | letters => rw [String.toList_ofList]; rfl
  | verbose => rfl
  | name => rw [toList_name]; rfl
  | nameWithValue => rw [toList_nameWithValue]; rfl

/-! ## Reading words -/

/-- The reading gets where it should: before a command's name to that name, and
    behind it to the end. -/
def Reading.Arrives (scope : Scope) : Reading → Prop
  | .done _ => scope ≠ .top
  | .command _ _ _ => scope = .top
  | .help _ | .version | .wrong => False

/-- Where a reading ends at which a draft and some words are left. -/
inductive EndsAt : Scope → Draft → List String → Reading → Prop where
  | done {scope : Scope} {d : Draft} (hscope : scope ≠ .top) :
      EndsAt scope d [] (.done d)
  | command {d : Draft} {name : String} {rest : List String}
      (hname : name ∈ commandNames) :
      EndsAt .top d (name :: rest) (.command d name rest)

variable {ending : Reading} {is : List Item}

theorem not_arrives_of_applySigns {signs : List Sign}
    (h : applySigns scope d signs = .error ending) :
    ¬ ending.Arrives scope := by
  induction signs generalizing d with
  | nil => exact nomatch h
  | cons sign rest ih =>
      rw [applySigns.eq_def] at h
      dsimp only at h
      split at h
      · cases h
        exact id
      · split at h
        · cases h
          exact id
        · cases h
          exact id
        · cases h
          exact id
        · exact ih h
        · split at h
          · exact ih h
          · cases h
            exact id
        · exact nomatch h

/-- A word with a dash in front is no command's name. -/
theorem not_name_of_head (hw : w.toList.head? = some '-') :
    ¬ (scope = .top ∧ commandNames.contains w = true) := by
  rintro ⟨-, hname⟩
  have hmem : w ∈ commandNames := List.contains_iff_mem.mp hname
  simp only [commandNames, List.mem_cons, List.not_mem_nil, or_false] at hmem
  rcases hmem with rfl | rfl | rfl <;> exact absurd hw (by decide)

/-- Behind two dashes all words are plain. -/
theorem readWords_plain (hscope : scope ≠ .top) (d : Draft)
    (ws : List String) : readWords scope true d ws
      = .done (d.saidAll (ws.map .plain)) := by
  induction ws generalizing d with
  | nil => rfl
  | cons w rest ih =>
      rw [readWords, if_neg hscope, ih]
      rfl

/-- A part is taken in, if nothing is wrong with it. -/
theorem SaysPart.readWords (h : SaysPart scope ws is)
    (hok : (d.saidAll is).ok scope = true) (rest : List String) :
    readWords scope false d (ws ++ rest)
      = readWords scope false (d.saidAll is) rest := by
  cases h with
  | @option w _ h =>
      obtain ⟨signs, hw, happly⟩ := h.applySigns hok
      rw [List.cons_append, CommandLine.readWords,
        if_neg (not_name_of_head h.head), hw]
      dsimp only
      rw [happly]
      rfl
  | @optionNext w v is f h hv =>
      rw [Draft.saidAll_append] at hok
      obtain ⟨signs, hw, happly⟩ := h.applySigns (Draft.ok_of_saidAll hok)
      rw [List.cons_append, CommandLine.readWords,
        if_neg (not_name_of_head h.head), hw]
      dsimp only
      rw [happly]
      dsimp only [List.cons_append]
      rw [if_pos (Word.of_plain hv), Draft.saidAll_append]
      rfl
  | @plain w hscope hw =>
      rw [List.cons_append, CommandLine.readWords, if_neg fun h => hscope h.1,
        Word.of_plain hw]
      exact if_neg hscope

/-- A reading that gets where it should is there already, or takes in a part of
    the words, or comes to two dashes. -/
theorem readWords_cons (h : readWords scope false d (w :: rest) = ending)
    (harrives : ending.Arrives scope) :
    EndsAt scope d (w :: rest) ending ∨
    (∃ ws is rest', SaysPart scope ws is ∧ w :: rest = ws ++ rest' ∧
      rest'.length ≤ rest.length ∧
      readWords scope false (d.saidAll is) rest' = ending) ∨
    (scope ≠ .top ∧ w = "--" ∧
      ending = .done (d.saidAll (rest.map .plain))) := by
  rw [readWords] at h
  split at h
  next hname =>
    obtain ⟨rfl, hname⟩ := hname
    obtain rfl := h
    exact .inl (.command (List.contains_iff_mem.mp hname))
  next hname =>
    right
    split at h
    next hw =>
      by_cases hscope : scope = .top
      · subst hscope
        cases rest with
        | nil =>
            obtain rfl := h
            exact absurd rfl harrives
        | cons w rest =>
            obtain rfl := h
            exact harrives.elim
      · rw [readWords_plain hscope] at h
        exact .inr ⟨hscope, eq_dashes_of_word hw, h.symm⟩
    next hw =>
      split at h
      · obtain rfl := h
        exact harrives.elim
      next hscope =>
        exact .inl ⟨[w], _, rest, .plain hscope (isPlain_of_word hw), rfl,
          Nat.le_refl _, h⟩
    next signs hw =>
      split at h
      next happly =>
        obtain rfl := h
        exact absurd harrives (not_arrives_of_applySigns happly)
      next d' happly =>
        obtain ⟨is, hword, rfl⟩ := says_of_applySigns hw happly
        exact .inl ⟨[w], is, rest, .option hword, rfl, Nat.le_refl _, h⟩
      next d' f happly =>
        obtain ⟨is, hword, rfl⟩ := says_of_applySigns hw happly
        split at h
        · obtain rfl := h
          exact harrives.elim
        next v rest =>
          split at h
          next hv =>
            refine .inl ⟨[w, v], _, rest, .optionNext hword
              (isPlain_of_word hv), rfl, Nat.le_succ _, ?_⟩
            rw [Draft.saidAll_append]
            exact h
          next =>
            obtain rfl := h
            exact harrives.elim

/-- Only what the words say is taken in, up to where the reading ends. -/
theorem readWords_sound (ws : List String) (d : Draft)
    (h : readWords scope false d ws = ending)
    (harrives : ending.Arrives scope) : ∃ before is rest,
      ws = before ++ rest ∧ Says scope before is ∧
      EndsAt scope (d.saidAll is) rest ending := by
  -- a part has one word or two, so the recursion is on the number of words
  match ws with
  | [] =>
      obtain rfl := h
      exact ⟨[], [], [], rfl, .nothing, .done harrives⟩
  | w :: rest =>
      rcases readWords_cons h harrives with
        hend | ⟨ws, is, rest', hpart, hws, hlength, h⟩ | ⟨hscope, rfl, rfl⟩
      · exact ⟨[], [], w :: rest, rfl, .nothing, hend⟩
      · obtain ⟨before, js, rest, rfl, hsays, hend⟩ :=
          readWords_sound rest' _ h harrives
        rw [← Draft.saidAll_append] at hend
        rw [hws, ← List.append_assoc]
        exact ⟨_, _, rest, rfl, .part hpart hsays, hend⟩
      · exact ⟨_, _, [], (List.append_nil _).symm, .dashes hscope rest,
          .done hscope⟩
termination_by ws.length

/-- Whatever words say is taken in, if nothing is wrong with it. -/
theorem readWords_complete {before : List String}
    (h : Says scope before is) (hend : EndsAt scope (d.saidAll is) rest ending)
    (hok : (d.saidAll is).ok scope = true) :
    readWords scope false d (before ++ rest) = ending := by
  induction h generalizing d with
  | nothing =>
      cases hend with
      | done => rfl
      | command hname =>
          rw [List.nil_append, readWords]
          exact if_pos ⟨rfl, List.contains_iff_mem.mpr hname⟩
  | part h _ ih =>
      rw [Draft.saidAll_append] at hend hok
      rw [List.append_assoc, h.readWords (Draft.ok_of_saidAll hok)]
      exact ih hend hok
  | dashes hscope ws =>
      cases hend with
      | command => exact absurd rfl hscope
      | done =>
          rw [List.append_nil, readWords, if_neg fun h => hscope h.1]
          exact readWords_plain hscope d ws

end RiskExchange.CommandLine
