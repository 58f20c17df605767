import Mathlib.Data.List.Forall2
import RiskExchange.Proofs.CommandLine.Words
import RiskExchange.Proofs.Results

/-! # Lines — which lines ask for which command

    A line has a command's name in it, with options on either side of it. A
    path or a number is given at most once on a side, and the path of the
    settings behind the name comes before the one in front of it. These are
    the lines that are accepted, and the command is made of what their words
    say (`ofWords_eq_run_iff`). -/

namespace RiskExchange.CommandLine

open RiskExchange.Text (IsUnsigned)

variable {scope : Scope} {d : Draft} {is inner outer : List Item} {f : Flag}
  {words rest : List String} {i : Invocation} {w : String} {n : Nat}

/-! ## What is given -/

/-- The values that are said of an option. -/
def valuesOf (f : Flag) (is : List Item) : List String :=
  is.filterMap fun
    | .value g v => if g = f then some v else none
    | _ => none

/-- The plain words that are said. -/
def plainOf (is : List Item) : List String :=
  is.filterMap fun
    | .plain w => some w
    | _ => none

/-- A path is given for the option once, or not at all. -/
def GivesPath (is : List Item) (f : Flag) (path : Option String) : Prop :=
  valuesOf f is = path.toList ∧ path ≠ some ""

/-- The word is a numeral of a number of 64 bits. -/
def IsNumber (w : String) (n : Nat) : Prop :=
  IsUnsigned n w.toList ∧ n < 2 ^ 64

/-- A number is given for the option once, or not at all. -/
def GivesNumber (is : List Item) (f : Flag) (n : Option Nat) : Prop :=
  List.Forall₂ IsNumber (valuesOf f is) n.toList

/-- How often verbosity is asked for: behind the name, or else in front. -/
def loudness (outer inner : List Item) : Nat :=
  if inner.count .verbose = 0 then outer.count .verbose
  else inner.count .verbose

/-- The commands by their names. -/
inductive Named : String → Scope → Prop where
  | convert : Named "convert" .convert
  | encode : Named "encode" .encode

/-- What is said behind a command's name makes the command. -/
inductive Makes (is : List Item) : Scope → Command → Prop where
  | convert {input : String} {output store : Option String}
      {indent : Option Nat} (hinput : plainOf is = [input]) (hne : input ≠ "")
      (houtput : GivesPath is .output output)
      (hstore : GivesPath is .store store)
      (hindent : GivesNumber is .indent indent) :
      Makes is .convert (.convert input output store indent)
  | encode {terms : List Nat}
      (hterms : List.Forall₂ IsNumber (plainOf is) terms)
      (hne : terms ≠ []) : Makes is .encode (.encode terms)

/-- The words are a line that asks for this. -/
inductive Asks : List String → Invocation → Prop where
  | intro {before rest : List String} {name : String} {scope : Scope}
      {outer inner : List Item} {outerConfig innerConfig : Option String}
      {command : Command} (hname : Named name scope)
      (hbefore : Says .top before outer) (hrest : Says scope rest inner)
      (houter : GivesPath outer .config outerConfig)
      (hinner : GivesPath inner .config innerConfig)
      (hcommand : Makes inner scope command) :
      Asks (before ++ name :: rest)
        ⟨loudness outer inner,
          (innerConfig.or outerConfig).getD "pramef.toml", command⟩

/-! ## Drafts of what is said -/

/-- A draft has what is said, each at its place. -/
theorem Draft.saidAll_eq (d : Draft) (is : List Item) : d.saidAll is =
    { verbosity := if is.count .verbose = 0 then d.verbosity
        else some (d.verbosity.getD 0 + is.count .verbose)
      configs := d.configs ++ valuesOf .config is
      outputs := d.outputs ++ valuesOf .output is
      stores := d.stores ++ valuesOf .store is
      indents := d.indents ++ valuesOf .indent is
      values := d.values ++ plainOf is } := by
  induction is generalizing d with
  | nil => simp [saidAll, valuesOf, plainOf]
  | cons i rest ih =>
      rw [saidAll, List.foldl_cons, ← saidAll, ih]
      cases i with
      | verbose =>
          have hcount : d.verbosity.getD 0 + 1 + rest.count .verbose
              = d.verbosity.getD 0 + (rest.count .verbose + 1) := by omega
          simp [said, addVerbose, valuesOf, plainOf, hcount]
      | plain w => simp [said, addPlain, valuesOf, plainOf]
      | value f v => cases f <;> simp [said, addValue, valuesOf, plainOf]

/-! ## Paths and numbers -/

namespace Draft

theorem onePath_iff {l : List String} :
    onePath l = true ↔ ∃ p : Option String, l = p.toList ∧ p ≠ some "" := by
  match l with
  | [] => exact ⟨fun _ => ⟨none, rfl, nofun⟩, fun _ => rfl⟩
  | [w] =>
      constructor
      · intro h
        refine ⟨some w, rfl, ?_⟩
        rintro ⟨⟩
        exact nomatch h
      · rintro ⟨p, hp, hne⟩
        cases p with
        | none => exact nomatch hp
        | some p =>
            cases hp
            exact decide_eq_true fun hempty => hne (congrArg some hempty)
  | _ :: _ :: _ =>
      constructor
      · exact fun h => nomatch h
      · rintro ⟨p, hp, -⟩
        cases p <;> exact nomatch hp

theorem number?_eq_some_iff : number? w = some n ↔ IsNumber w n := by
  rw [number?, toOption_eq_some_iff, Text.readUnsigned_eq_ok_iff]
  exact and_congr_right fun _ => Nat.le_iff_lt_add_one

theorem oneNumber_iff {l : List String} : oneNumber l = true ↔
    ∃ n : Option Nat, List.Forall₂ IsNumber l n.toList := by
  match l with
  | [] => exact ⟨fun _ => ⟨none, .nil⟩, fun _ => rfl⟩
  | [w] =>
      rw [oneNumber, Option.isSome_iff_exists]
      simp only [number?_eq_some_iff]
      constructor
      · rintro ⟨n, hn⟩
        exact ⟨some n, .cons hn .nil⟩
      · rintro ⟨n, hn⟩
        cases n with
        | none => exact nomatch hn
        | some n =>
            cases hn with
            | cons hn _ => exact ⟨n, hn⟩
  | _ :: _ :: _ =>
      constructor
      · exact fun h => nomatch h
      · rintro ⟨n, hn⟩
        cases n with
        | none => exact nomatch hn
        | some n =>
            cases hn with
            | cons _ hrest => exact nomatch hrest

/-- The number that is given is the one that is read. -/
theorem number?_of_forall₂ {l : List String} {n : Option Nat}
    (h : List.Forall₂ IsNumber l n.toList) : l.head?.bind number? = n := by
  cases n with
  | none =>
      cases h
      rfl
  | some n =>
      cases h with
      | cons hn _ => exact number?_eq_some_iff.mpr hn

theorem mapM_number?_iff {l : List String} {ns : List Nat} :
    l.mapM number? = some ns ↔ List.Forall₂ IsNumber l ns := by
  induction l generalizing ns with
  | nil =>
      rw [List.mapM_nil, List.forall₂_nil_left_iff]
      exact ⟨fun h => (Option.some.inj h).symm, fun h => congrArg some h.symm⟩
  | cons w rest ih =>
      rw [List.mapM_cons]
      constructor
      · intro h
        obtain ⟨n, hn, h⟩ := Option.bind_eq_some_iff.mp h
        obtain ⟨ns, hns, h⟩ := Option.bind_eq_some_iff.mp h
        cases h
        exact .cons (number?_eq_some_iff.mp hn) (ih.mp hns)
      · intro h
        cases h with
        | cons hn hns =>
            refine Option.bind_eq_some_iff.mpr
              ⟨_, number?_eq_some_iff.mpr hn, ?_⟩
            exact Option.bind_eq_some_iff.mpr ⟨_, ih.mpr hns, rfl⟩

theorem plainOk_encode {l : List String} {ns : List Nat}
    (h : List.Forall₂ IsNumber l ns) : plainOk .encode l = true := by
  induction h with
  | nil => rfl
  | cons hn _ ih =>
      rw [plainOk, List.all_cons, number?_eq_some_iff.mpr hn]
      exact ih

/-- The draft of what is said behind a command's name, or in front of it. -/
def of (is : List Item) : Draft := saidAll {} is

theorem ok_of_iff : (of is).ok scope = true ↔
    ((((∃ p, GivesPath is .config p) ∧ (∃ p, GivesPath is .output p)) ∧
      (∃ p, GivesPath is .store p)) ∧ (∃ n, GivesNumber is .indent n)) ∧
      plainOk scope (plainOf is) = true := by
  rw [of, saidAll_eq]
  simp only [ok, Bool.and_eq_true, List.nil_append, onePath_iff, oneNumber_iff]
  rfl

end Draft

/-! ## What is not said -/

/-- The item can be said at the scope. -/
def Item.Fits (scope : Scope) : Item → Prop
  | .verbose => True
  | .value f _ => ∃ name letter, Takes scope f name letter
  | .plain _ => scope ≠ .top

theorem Letters.fits {s : List Char} {waiting : Option Flag}
    (h : Letters scope s is waiting) : (∀ i ∈ is, i.Fits scope) ∧
      ∀ f, waiting = some f → ∃ name letter, Takes scope f name letter := by
  induction h with
  | nothing => exact ⟨nofun, nofun⟩
  | verbose _ ih => exact ⟨List.forall_mem_cons.mpr ⟨trivial, ih.1⟩, ih.2⟩
  | awaits hf =>
      refine ⟨nofun, ?_⟩
      rintro f ⟨⟩
      exact ⟨_, _, hf⟩
  | equals hf | attached hf =>
      exact ⟨List.forall_mem_singleton.mpr ⟨_, _, hf⟩, nofun⟩

theorem SaysWord.fits {waiting : Option Flag}
    (h : SaysWord scope w is waiting) :
    (∀ i ∈ is, i.Fits scope) ∧
      ∀ f, waiting = some f → ∃ name letter, Takes scope f name letter := by
  cases h with
  | letters _ h => exact h.fits
  | verbose => exact ⟨List.forall_mem_singleton.mpr trivial, nofun⟩
  | name hf =>
      refine ⟨nofun, ?_⟩
      rintro f ⟨⟩
      exact ⟨_, _, hf⟩
  | nameWithValue hf =>
      exact ⟨List.forall_mem_singleton.mpr ⟨_, _, hf⟩, nofun⟩

/-- Words say nothing that cannot be said at their scope. -/
theorem Says.fits (h : Says scope words is) : ∀ i ∈ is, i.Fits scope := by
  induction h with
  | nothing => exact nofun
  | part h _ ih =>
      refine List.forall_mem_append.mpr ⟨?_, ih⟩
      cases h with
      | option h => exact h.fits.1
      | optionNext h =>
          exact List.forall_mem_append.mpr ⟨h.fits.1,
            List.forall_mem_singleton.mpr (h.fits.2 _ rfl)⟩
      | plain hscope => exact List.forall_mem_singleton.mpr hscope
  | dashes hscope ws =>
      intro i hi
      obtain ⟨w, -, rfl⟩ := List.mem_map.mp hi
      exact hscope

theorem Says.valuesOf_eq_nil (h : Says scope words is)
    (hf : ∀ name letter, ¬ Takes scope f name letter) :
    valuesOf f is = [] := by
  refine List.filterMap_eq_nil_iff.mpr fun i hi => ?_
  have hfits := h.fits i hi
  match i with
  | .verbose | .plain _ => rfl
  | .value g v =>
      refine if_neg ?_
      rintro rfl
      obtain ⟨name, letter, htakes⟩ := hfits
      exact hf name letter htakes

theorem Says.plainOf_eq_nil (h : Says .top words is) : plainOf is = [] := by
  refine List.filterMap_eq_nil_iff.mpr fun i hi => ?_
  have hfits := h.fits i hi
  match i with
  | .verbose | .value _ _ => rfl
  | .plain _ => exact absurd rfl hfits

/-- Where there is nothing but the path of the settings to be said, no more can
    be wrong with the options. -/
theorem Says.ok_of_iff (h : Says scope words is) (hscope : scope ≠ .convert) :
    (Draft.of is).ok scope = true ↔
      (∃ p, GivesPath is .config p) ∧
        Draft.plainOk scope (plainOf is) = true := by
  have hnone {f : Flag} (hf : f ≠ .config) : valuesOf f is = [] := by
    refine h.valuesOf_eq_nil fun name letter htakes => ?_
    cases htakes with
    | config => exact hf rfl
    | output | store | indent => exact hscope rfl
  have hpath {f : Flag} (hf : f ≠ .config) : ∃ p, GivesPath is f p :=
    ⟨none, hnone hf, nofun⟩
  have hnumber : ∃ n, GivesNumber is .indent n := by
    refine ⟨none, ?_⟩
    rw [GivesNumber, hnone (by decide)]
    exact .nil
  rw [Draft.ok_of_iff]
  constructor
  · rintro ⟨⟨⟨⟨hconfig, -⟩, -⟩, -⟩, hplain⟩
    exact ⟨hconfig, hplain⟩
  · rintro ⟨hconfig, hplain⟩
    exact ⟨⟨⟨⟨hconfig, hpath (by decide)⟩, hpath (by decide)⟩, hnumber⟩, hplain⟩

/-! ## Lines -/

/-- The command behind a name, and what its words and those in front of the
    name say to every command. -/
theorem readCommand_eq_run_iff {draft : Draft} :
    readCommand draft scope rest = .run i ↔ ∃ inner command,
      readWords scope false {} rest = .done inner ∧
      (inner.ok scope = true ∧ draft.ok .top = true) ∧
      inner.command? scope = some command ∧
      i = ⟨(inner.verbosity.or draft.verbosity).getD 0,
        (inner.configs.head?.or draft.configs.head?).getD "pramef.toml",
        command⟩ := by
  have hor {α : Type} (a b : Option α) : (a.orElse fun _ => b) = a.or b := by
    cases a <;> rfl
  constructor
  · intro h
    unfold readCommand at h
    cases hinner : readWords scope false {} rest with
    | command d name more | help long | version | wrong =>
        rw [hinner] at h
        exact nomatch h
    | done inner =>
        simp only [hinner, hor] at h
        split at h
        · exact nomatch h
        next command hcommand =>
          split at h
          next hok =>
            exact ⟨inner, command, rfl, hok, hcommand,
              (Demand.run.inj h).symm⟩
          · exact nomatch h
  · rintro ⟨inner, command, hinner, hok, hcommand, rfl⟩
    simp only [readCommand, hinner, hcommand, if_pos hok, hor]
    rfl

/-- What the words say on either side of a command's name. -/
theorem ofWords_eq_run_iff_draft : Demand.ofWords words = .run i ↔
    ∃ before name rest outer scope, words = before ++ name :: rest ∧
      Named name scope ∧ Says .top before outer ∧
      readCommand (.of outer) scope rest = .run i := by
  constructor
  · intro h
    unfold Demand.ofWords at h
    cases houter : readWords .top false {} words with
    | done d | help long | version | wrong =>
        rw [houter] at h
        exact nomatch h
    | command draft name rest =>
        obtain ⟨before, outer, _, rfl, hsays, hend⟩ :=
          readWords_sound words {} houter rfl
        cases hend with
        | command hname =>
            simp only [houter] at h
            split_ifs at h with hconvert hencode
            · subst hconvert
              exact ⟨before, _, rest, outer, _, rfl, .convert, hsays, h⟩
            · subst hencode
              exact ⟨before, _, rest, outer, _, rfl, .encode, hsays, h⟩
            · unfold readTopic at h
              split at h <;> exact nomatch h
  · rintro ⟨before, name, rest, outer, scope, rfl, hname, hsays, h⟩
    obtain ⟨inner, command, -, ⟨-, hok⟩, -⟩ := readCommand_eq_run_iff.mp h
    have hmem : name ∈ commandNames := by
      cases hname <;> decide
    rw [Demand.ofWords, readWords_complete hsays (.command hmem) hok]
    cases hname with
    | convert => exact h
    | encode => exact h

/-- What is read behind a command's name is what its words say. -/
theorem readWords_eq_done_iff {d : Draft} (hscope : scope ≠ .top)
    (hok : d.ok scope = true) : readWords scope false {} rest = .done d ↔
      ∃ is, Says scope rest is ∧ d = .of is := by
  constructor
  · intro h
    obtain ⟨before, is, _, rfl, hsays, hend⟩ := readWords_sound rest {} h hscope
    cases hend with
    | done => exact ⟨is, (List.append_nil before).symm ▸ hsays, rfl⟩
  · rintro ⟨is, hsays, rfl⟩
    have h := readWords_complete hsays (.done hscope) hok
    rw [List.append_nil] at h
    exact h

theorem Draft.of_eq (is : List Item) : of is =
    { verbosity := if is.count .verbose = 0 then none
        else some (is.count .verbose)
      configs := valuesOf .config is
      outputs := valuesOf .output is
      stores := valuesOf .store is
      indents := valuesOf .indent is
      values := plainOf is } := by
  rw [of, saidAll_eq]
  simp

theorem loudness_eq (outer inner : List Item) :
    ((Draft.of inner).verbosity.or (Draft.of outer).verbosity).getD 0
      = loudness outer inner := by
  rw [Draft.of_eq, Draft.of_eq, loudness]
  dsimp only
  split
  · split <;> simp_all
  · rfl

theorem GivesPath.head? {path : Option String} (h : GivesPath is f path) :
    (valuesOf f is).head? = path := by
  rw [h.1]
  cases path <;> rfl

/-- Nothing is wrong with what is said behind the name of a conversion, and it
    is a command, exactly if it makes that command. -/
theorem makes_convert_iff {command : Command} :
    ((Draft.of is).ok .convert = true ∧
        (Draft.of is).command? .convert = some command) ↔
      (∃ p, GivesPath is .config p) ∧ Makes is .convert command := by
  rw [Draft.ok_of_iff, Draft.of_eq, Draft.command?]
  dsimp only
  constructor
  · rintro ⟨⟨⟨⟨⟨hconfig, output, houtput⟩, store, hstore⟩, indent, hindent⟩,
      hplain⟩, h⟩
    refine ⟨hconfig, ?_⟩
    split at h
    next input hinput =>
      rw [houtput.head?, hstore.head?, Draft.number?_of_forall₂ hindent] at h
      cases h
      rw [hinput] at hplain
      exact .convert hinput (of_decide_eq_true hplain) houtput hstore hindent
    next => exact nomatch h
  · rintro ⟨hconfig, h⟩
    cases h with
    | @convert input output store indent hinput hne houtput hstore hindent =>
        refine ⟨⟨⟨⟨⟨hconfig, output, houtput⟩, store, hstore⟩, indent,
          hindent⟩, ?_⟩, ?_⟩
        · rw [hinput]
          exact decide_eq_true hne
        · rw [hinput]
          dsimp only
          rw [houtput.head?, hstore.head?, Draft.number?_of_forall₂ hindent]

/-- The same for the encoding of terms. -/
theorem makes_encode_iff {command : Command} (h : Says .encode rest is) :
    ((Draft.of is).ok .encode = true ∧
        (Draft.of is).command? .encode = some command) ↔
      (∃ p, GivesPath is .config p) ∧ Makes is .encode command := by
  rw [h.ok_of_iff (by decide), Draft.of_eq, Draft.command?]
  dsimp only
  constructor
  · rintro ⟨⟨hconfig, -⟩, h⟩
    refine ⟨hconfig, ?_⟩
    split at h
    next => exact nomatch h
    next hne =>
      obtain ⟨terms, hterms, rfl⟩ := Option.map_eq_some_iff.mp h
      have hall := Draft.mapM_number?_iff.mp hterms
      refine .encode hall ?_
      rintro rfl
      exact hne (List.forall₂_nil_right_iff.mp hall)
  · rintro ⟨hconfig, h⟩
    cases h with
    | @encode terms hterms hne =>
        refine ⟨⟨hconfig, Draft.plainOk_encode hterms⟩, ?_⟩
        split
        next hnil =>
          rw [hnil] at hterms
          exact absurd (List.forall₂_nil_left_iff.mp hterms) hne
        next =>
          rw [Draft.mapM_number?_iff.mpr hterms]
          rfl

theorem Named.makes_iff {name : String} {command : Command}
    (hname : Named name scope) (h : Says scope rest is) :
    ((Draft.of is).ok scope = true ∧
        (Draft.of is).command? scope = some command) ↔
      (∃ p, GivesPath is .config p) ∧ Makes is scope command := by
  cases hname with
  | convert => exact makes_convert_iff
  | encode => exact makes_encode_iff h

theorem Named.ne_top {name : String} (hname : Named name scope) :
    scope ≠ .top := by
  cases hname <;> decide

/-- In front of a command's name, only the path of the settings is given. -/
theorem Says.ok_top_iff (h : Says .top words is) :
    (Draft.of is).ok .top = true ↔ ∃ p, GivesPath is .config p := by
  rw [h.ok_of_iff (by decide), h.plainOf_eq_nil]
  exact and_iff_left rfl

theorem invocation_eq {outerConfig innerConfig : Option String}
    (houter : GivesPath outer .config outerConfig)
    (hinner : GivesPath inner .config innerConfig) (command : Command) :
    Invocation.mk
        (((Draft.of inner).verbosity.or (Draft.of outer).verbosity).getD 0)
        (((Draft.of inner).configs.head?.or
          (Draft.of outer).configs.head?).getD "pramef.toml") command
      = ⟨loudness outer inner,
          (innerConfig.or outerConfig).getD "pramef.toml", command⟩ := by
  rw [loudness_eq, Draft.of_eq, Draft.of_eq]
  dsimp only
  rw [houter.head?, hinner.head?]

/-- The lines that are accepted, and what they ask for. -/
theorem ofWords_eq_run_iff : Demand.ofWords words = .run i ↔ Asks words i := by
  rw [ofWords_eq_run_iff_draft]
  constructor
  · rintro ⟨before, name, rest, outer, scope, rfl, hname, hbefore, h⟩
    obtain ⟨d, command, hd, ⟨hok, houter⟩, hcommand, rfl⟩ :=
      readCommand_eq_run_iff.mp h
    obtain ⟨inner, hrest, rfl⟩ := (readWords_eq_done_iff hname.ne_top hok).mp hd
    obtain ⟨outerConfig, houter⟩ := hbefore.ok_top_iff.mp houter
    obtain ⟨⟨innerConfig, hinner⟩, hmakes⟩ :=
      (hname.makes_iff hrest).mp ⟨hok, hcommand⟩
    rw [invocation_eq houter hinner]
    exact .intro hname hbefore hrest houter hinner hmakes
  · rintro ⟨hname, hbefore, hrest, houter, hinner, hmakes⟩
    obtain ⟨hok, hcommand⟩ := (hname.makes_iff hrest).mpr ⟨⟨_, hinner⟩, hmakes⟩
    refine ⟨_, _, _, _, _, rfl, hname, hbefore, ?_⟩
    refine readCommand_eq_run_iff.mpr ⟨_, _,
      (readWords_eq_done_iff hname.ne_top hok).mpr ⟨_, hrest, rfl⟩,
      ⟨hok, hbefore.ok_top_iff.mpr ⟨_, houter⟩⟩, hcommand, ?_⟩
    exact (invocation_eq houter hinner _).symm

end RiskExchange.CommandLine
