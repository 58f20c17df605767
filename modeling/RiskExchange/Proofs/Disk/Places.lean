import Mathlib.Data.List.Induction
import RiskExchange.Proofs.Disk.Directories
import RiskExchange.Proofs.Disk.PlainPaths

/-! # Places — where plain paths lead on a disk

    A plain path names one place, whatever stands on the disk: its steps from
    the working directory (`placeOf`). It leads there if there is a directory
    wherever it leads through (`Path.Plain.leads_iff`), and on a tree that is
    so whenever something stands at its place (`IsTree.rooted`). -/

namespace RiskExchange.Disk

variable {d d' : Disk} {path up : String} {p q : Place} {e : Entry}

/-! ## Walking through names -/

theorem enter_name {step : String} (h : ¬ (step = "." ∨ step = "..")) :
    d.enter p step = if maxNameSize < step.utf8ByteSize
      then .error .nameTooLong
      else match d.get? (p ++ [step]) with
        | none => .error .notFound
        | some (.file _) => .error .notDirectory
        | some .directory => .ok (p ++ [step]) := by
  rw [not_or] at h
  exact (if_neg h.1).trans (if_neg h.2)

theorem enter_eq_ok_iff {step : String} (h : ¬ (step = "." ∨ step = "..")) :
    d.enter p step = .ok q ↔ step.utf8ByteSize ≤ maxNameSize ∧
      d.get? (p ++ [step]) = some .directory ∧ q = p ++ [step] := by
  rw [enter_name h]
  by_cases hlong : maxNameSize < step.utf8ByteSize
  · rw [if_pos hlong]
    exact ⟨fun h => (nomatch h), fun h => absurd h.1 (Nat.not_le.mpr hlong)⟩
  · rw [if_neg hlong]
    have hsize := Nat.not_lt.mp hlong
    cases d.get? (p ++ [step]) with
    | none => exact ⟨fun h => (nomatch h), fun h => (nomatch h.2.1)⟩
    | some e =>
        cases e with
        | file c => exact ⟨fun h => (nomatch h), fun h => (nomatch h.2.1)⟩
        | directory =>
            exact ⟨fun h => ⟨hsize, rfl, (Except.ok.inj h).symm⟩,
              fun h => congrArg Except.ok h.2.2.symm⟩

/-- What holds along the steps holds at the first one and along the rest. -/
private theorem along_cons_iff {P : Place → Prop} {step : String}
    {rest : List String} :
    (∀ a, a ≠ [] → a <+: step :: rest → P (p ++ a)) ↔
      P (p ++ [step]) ∧
        ∀ a, a ≠ [] → a <+: rest → P (p ++ [step] ++ a) := by
  have happ (a : List String) : p ++ step :: a = p ++ [step] ++ a := by
    rw [List.append_assoc, List.singleton_append]
  have hpre (a : List String) (ha : a <+: rest) :
      step :: a <+: step :: rest := List.cons_prefix_cons.mpr ⟨rfl, ha⟩
  constructor
  · intro h
    refine ⟨h [step] (List.cons_ne_nil _ _) (hpre [] List.nil_prefix), ?_⟩
    intro a _ ha
    rw [← happ]
    exact h _ (List.cons_ne_nil _ _) (hpre a ha)
  · rintro ⟨hstep, hrest⟩ a hne ha
    rcases List.prefix_cons_iff.mp ha with rfl | ⟨t, rfl, ht⟩
    · exact absurd rfl hne
    · by_cases ht0 : t = []
      · rw [ht0]
        exact hstep
      · rw [happ]
        exact hrest t ht0 ht

/-- Names lead down, through directories only. -/
theorem walk_eq_ok_iff {steps : List String}
    (h : ∀ step ∈ steps, ¬ (step = "." ∨ step = "..")) :
    d.walk p steps = .ok q ↔ q = p ++ steps ∧
      (∀ step ∈ steps, step.utf8ByteSize ≤ maxNameSize) ∧
      ∀ a, a ≠ [] → a <+: steps → d.get? (p ++ a) = some .directory := by
  induction steps generalizing p with
  | nil =>
      rw [walk, List.append_nil]
      constructor
      · intro heq
        refine ⟨(Except.ok.inj heq).symm, ?_, ?_⟩
        · intro step hs
          exact absurd hs List.not_mem_nil
        · intro a hne ha
          exact absurd (List.prefix_nil.mp ha) hne
      · rintro ⟨rfl, -⟩
        rfl
  | cons step rest ih =>
      obtain ⟨hstep, hrest⟩ := List.forall_mem_cons.mp h
      have happ : p ++ step :: rest = p ++ [step] ++ rest := by
        rw [List.append_assoc, List.singleton_append]
      rw [along_cons_iff (P := fun p => d.get? p = some .directory), happ]
      constructor
      · intro hw
        obtain ⟨p', he, hw⟩ := bind_eq_ok hw
        obtain ⟨hlong, hg, rfl⟩ := (enter_eq_ok_iff hstep).mp he
        obtain ⟨hq, hsize, hway⟩ := (ih hrest).mp hw
        exact ⟨hq, List.forall_mem_cons.mpr ⟨hlong, hsize⟩, hg, hway⟩
      · rintro ⟨hq, hsize, hg, hway⟩
        obtain ⟨hlong, hsize⟩ := List.forall_mem_cons.mp hsize
        rw [walk, (enter_eq_ok_iff hstep).mpr ⟨hlong, hg, rfl⟩]
        exact (ih hrest).mpr ⟨hq, hsize, hway⟩

theorem walk_append (d : Disk) (p : Place) (steps more : List String) :
    d.walk p (steps ++ more) = d.walk p steps >>= fun q => d.walk q more := by
  induction steps generalizing p with
  | nil => rfl
  | cons step rest ih =>
      rw [List.cons_append, walk, walk]
      cases d.enter p step with
      | error e => rfl
      | ok q => exact ih q

/-- Where no file is on the way, names lead down or something is missing. -/
theorem walk_of_no_file {steps : List String}
    (h : ∀ step ∈ steps, ¬ (step = "." ∨ step = ".."))
    (hsize : ∀ step ∈ steps, step.utf8ByteSize ≤ maxNameSize)
    (hfile : ∀ a, a ≠ [] → a <+: steps →
      ∀ c, d.get? (p ++ a) ≠ some (.file c)) :
    d.walk p steps = .ok (p ++ steps) ∨
      d.walk p steps = .error .notFound := by
  induction steps generalizing p with
  | nil =>
      rw [walk, List.append_nil]
      exact .inl rfl
  | cons step rest ih =>
      obtain ⟨hstep, hrest⟩ := List.forall_mem_cons.mp h
      obtain ⟨hlong, hsize⟩ := List.forall_mem_cons.mp hsize
      obtain ⟨hfirst, hfile⟩ := along_cons_iff
        (P := fun p => ∀ c, d.get? p ≠ some (.file c)) |>.mp hfile
      have happ : p ++ step :: rest = p ++ [step] ++ rest := by
        rw [List.append_assoc, List.singleton_append]
      rw [walk, enter_name hstep, if_neg (Nat.not_lt.mpr hlong), happ]
      cases hg : d.get? (p ++ [step]) with
      | none => exact .inr rfl
      | some e =>
          cases e with
          | file c => exact absurd hg (hfirst c)
          | directory => exact ih hrest hsize hfile

/-! ## The place of a plain path -/

/-- The place that a plain path names. -/
def placeOf (d : Disk) (path : String) : Place := d.here ++ Path.steps path

/-- The text and all names in it are short enough for a system call. -/
structure Path.Fits (path : String) : Prop where
  usable : Usable path
  names : ∀ step ∈ steps path, step.utf8ByteSize ≤ maxNameSize

/-- There is a directory wherever the path leads through. -/
def Way (d : Disk) (path : String) : Prop :=
  ∀ a, Path.Above a (Path.steps path) →
    d.get? (d.here ++ a) = some .directory

/-- There is no file where the path leads through. -/
def Clear (d : Disk) (path : String) : Prop :=
  ∀ a c, Path.Above a (Path.steps path) →
    d.get? (d.here ++ a) ≠ some (.file c)

theorem Way.clear (h : d.Way path) : d.Clear path := by
  intro a c ha hc
  rw [h a ha] at hc
  exact nomatch hc

theorem Way.mono (h : d.Way path) (hk : KeepsDirectories d d') :
    d'.Way path := by
  intro a ha
  rw [hk.here]
  exact hk.keeps _ (h a ha)

namespace Path

/-- A plain path is looked up by walking all names but the last. -/
theorem Plain.locate_eq (h : Plain path) (hu : Usable path)
    {init : List String} {last : String} (hs : steps path = init ++ [last])
    (d : Disk) : d.locate path = (d.walk d.here init).map
      fun directory => ⟨directory, .name last, false⟩ := by
  have hlast : lastStep last = .name last :=
    if_neg (h.isName_of_mem_steps (by rw [hs]; simp))
  rw [locate_of_usable d hu, hs, List.getLast?_concat, h.start_eq,
    List.dropLast_concat, h.endsWithSlash_eq]
  simp only [hlast]

theorem Plain.locate_eq_ok_iff (h : Plain path) {l : Location} :
    d.locate path = .ok l ↔ Usable path ∧ ∃ init last directory,
      steps path = init ++ [last] ∧ d.walk d.here init = .ok directory ∧
        l = ⟨directory, .name last, false⟩ := by
  constructor
  · intro hl
    have hu := usable_of_locate hl
    obtain ⟨init, last, hs⟩ := h.steps_eq
    rw [h.locate_eq hu hs] at hl
    cases hw : d.walk d.here init with
    | error e =>
        rw [hw] at hl
        exact nomatch hl
    | ok q =>
        rw [hw] at hl
        exact ⟨hu, init, last, q, hs, hw, (Except.ok.inj hl).symm⟩
  · rintro ⟨hu, init, last, directory, hs, hw, rfl⟩
    rw [h.locate_eq hu hs, hw]
    rfl

/-- The names on the way to a plain path are names. -/
private theorem Plain.isName_of_init (h : Plain path) {init : List String}
    {last : String} (hs : steps path = init ++ [last]) :
    ∀ step ∈ init, ¬ (step = "." ∨ step = "..") := by
  intro step hstep
  refine h.isName_of_mem_steps ?_
  rw [hs]
  exact List.mem_append_left _ hstep

/-- Whatever stands on a disk, a plain path may name its own place only. -/
theorem Plain.eq_of_mayName (h : Plain path) {here : Place}
    (hp : p ∈ mayName here path) : p = here ++ steps path := by
  obtain ⟨d, dir, n, slash, rfl, hl, rfl⟩ := hp
  obtain ⟨-, init, last, q, hs, hw, heq⟩ := h.locate_eq_ok_iff.mp hl
  cases heq
  obtain ⟨rfl, -⟩ := (walk_eq_ok_iff (h.isName_of_init hs)).mp hw
  rw [hs, List.append_assoc]

/-- The making of directories above a plain path makes them above its
    place. -/
theorem Leading.above_of_mayName {here : Place} (hup : Leading up path)
    (hp : p ∈ mayName here up) :
    ∃ a, Above a (steps path) ∧ p = here ++ a := by
  rcases hup with rfl | ⟨hplain, ha⟩
  · obtain ⟨d, dir, n, slash, -, hl, -⟩ := hp
    have hdot := mem_steps_of_locate hl
    have hone : steps "." = ["."] := by decide +kernel
    rw [locate_of_usable d (usable_of_locate hl), hone] at hl
    exact nomatch hl
  · exact ⟨steps up, ha, hplain.eq_of_mayName hp⟩

/-- A plain path leads to its place through directories. -/
theorem Plain.leads_iff (h : Plain path) :
    Leads d path p ↔ Fits path ∧ d.Way path ∧ p = d.placeOf path := by
  constructor
  · rintro ⟨dir, n, hl, hn, rfl⟩
    obtain ⟨hu, init, last, q, hs, hw, heq⟩ := h.locate_eq_ok_iff.mp hl
    cases heq
    obtain ⟨rfl, hsize, hway⟩ := (walk_eq_ok_iff (h.isName_of_init hs)).mp hw
    refine ⟨⟨hu, ?_⟩, ?_, ?_⟩
    · intro step hstep
      rw [hs] at hstep
      rcases List.mem_append.mp hstep with hinit | hlast
      · exact hsize step hinit
      · rw [List.mem_singleton.mp hlast]
        exact hn
    · intro a ha
      rw [hs] at ha
      obtain ⟨hne, hpre⟩ := above_concat_iff.mp ha
      exact hway a hne hpre
    · rw [placeOf, hs, List.append_assoc]
  · rintro ⟨hfits, hway, rfl⟩
    obtain ⟨init, last, hs⟩ := h.steps_eq
    have hnames := hfits.names
    rw [hs] at hnames
    have hw : d.walk d.here init = .ok (d.here ++ init) := by
      refine (walk_eq_ok_iff (h.isName_of_init hs)).mpr ⟨rfl, ?_, ?_⟩
      · exact fun step hstep => hnames step (List.mem_append_left _ hstep)
      · intro a hne hpre
        refine hway a ?_
        rw [hs]
        exact above_concat_iff.mpr ⟨hne, hpre⟩
    refine ⟨d.here ++ init, last, ?_, hnames last (by simp), ?_⟩
    · exact h.locate_eq_ok_iff.mpr
        ⟨hfits.usable, init, last, _, hs, hw, rfl⟩
    · rw [placeOf, hs, List.append_assoc]

/-- What is read at a plain path stands at its place. -/
theorem Plain.leads_of_entryAt (h : Plain path)
    (he : d.entryAt path = .ok e) :
    Leads d path (d.placeOf path) ∧ d.get? (d.placeOf path) = some e := by
  -- whatever is read, a file or a directory, the path has led to a name
  have hleads : ∃ q, Leads d path q := by
    obtain ⟨l, hl, he⟩ := bind_eq_ok he
    obtain ⟨-, init, n, dir, -, -, rfl⟩ := h.locate_eq_ok_iff.mp hl
    obtain ⟨hn, -⟩ := entryIn_bind_eq_ok he
    exact ⟨_, dir, n, hl, hn, rfl⟩
  obtain ⟨q, hq⟩ := hleads
  have heq := (h.leads_iff.mp hq).2.2
  rw [heq] at hq
  refine ⟨hq, ?_⟩
  rw [hq.entryAt] at he
  cases hg : d.get? (d.placeOf path) with
  | none =>
      rw [hg] at he
      cases he
  | some f =>
      rw [hg] at he
      exact congrArg some (Except.ok.inj he)

/-- A plain path shows what stands at its place, if it leads there. -/
theorem Plain.shown_eq_some_iff (h : Plain path) :
    d.shown path = some e ↔ Fits path ∧ d.Way path ∧
      d.get? (d.placeOf path) = some e := by
  rw [Disk.shown_eq_some_iff]
  constructor
  · intro he
    obtain ⟨hl, hg⟩ := h.leads_of_entryAt he
    obtain ⟨hfits, hway, -⟩ := h.leads_iff.mp hl
    exact ⟨hfits, hway, hg⟩
  · rintro ⟨hfits, hway, hg⟩
    rw [(h.leads_iff.mpr ⟨hfits, hway, rfl⟩).entryAt, hg]

/-! ## Nothing at a path -/

/-- Nothing is found at a plain path if nothing stands at its place and no file
    is on the way. -/
theorem Plain.entryAt_of_clear (h : Plain path) (hfits : Fits path)
    (hclear : d.Clear path) (hn : d.get? (d.placeOf path) = none) :
    d.entryAt path = .error .notFound := by
  obtain ⟨init, last, hs⟩ := h.steps_eq
  have hnames := hfits.names
  rw [hs] at hnames
  have hwalk := walk_of_no_file (d := d) (p := d.here)
    (h.isName_of_init hs)
    (fun step hstep => hnames step (List.mem_append_left _ hstep))
    (fun a hne hpre c => hclear a c (by
      rw [hs]
      exact above_concat_iff.mpr ⟨hne, hpre⟩))
  rw [entryAt, h.locate_eq hfits.usable hs]
  rcases hwalk with hw | hw
  · rw [hw]
    change (d.entryIn (d.here ++ init) last >>= _) = _
    rw [entryIn_of_size (hnames last (by simp)), List.append_assoc, ← hs]
    rw [placeOf] at hn
    rw [hn]
    rfl
  · rw [hw]
    rfl

/-- A name that is too long is refused once the way to it is there. -/
theorem Plain.entryAt_of_long_name (h : Plain path) (hu : Usable path)
    {init : List String} {last : String} (hs : steps path = init ++ [last])
    (hinit : ∀ step ∈ init, step.utf8ByteSize ≤ maxNameSize)
    (hlong : maxNameSize < last.utf8ByteSize) (hway : d.Way path) :
    d.entryAt path = .error .nameTooLong := by
  have hw : d.walk d.here init = .ok (d.here ++ init) := by
    refine (walk_eq_ok_iff (h.isName_of_init hs)).mpr ⟨rfl, hinit, ?_⟩
    intro a hne hpre
    refine hway a ?_
    rw [hs]
    exact above_concat_iff.mpr ⟨hne, hpre⟩
  rw [entryAt, h.locate_eq hu hs, hw]
  change (d.entryIn (d.here ++ init) last >>= _) = _
  rw [entryIn, if_pos hlong]
  rfl

/-- A path that leads through a file is refused. -/
theorem Plain.entryAt_of_file_above (h : Plain path) (hfits : Fits path)
    {a : List String} {c : ByteArray} (ha : Above a (steps path))
    (hway : ∀ b, Above b a → d.get? (d.here ++ b) = some .directory)
    (hc : d.get? (d.here ++ a) = some (.file c)) :
    d.entryAt path = .error .notDirectory := by
  obtain ⟨init, last, hs⟩ := h.steps_eq
  have hname := h.isName_of_init hs
  have hsize : ∀ step ∈ init, step.utf8ByteSize ≤ maxNameSize := by
    intro step hstep
    refine hfits.names step ?_
    rw [hs]
    exact List.mem_append_left _ hstep
  rw [hs] at ha
  obtain ⟨hne, t, rfl⟩ := above_concat_iff.mp ha
  -- the walk comes to the directory that the file is in, and is stuck there
  have hwalk : d.walk d.here (a ++ t) = .error .notDirectory := by
    rcases List.eq_nil_or_concat a with rfl | ⟨b, x, rfl⟩
    · exact absurd rfl hne
    · rw [List.concat_eq_append] at hname hsize hway hc ⊢
      have hb : d.walk d.here b = .ok (d.here ++ b) := by
        refine (walk_eq_ok_iff ?_).mpr ⟨rfl, ?_, ?_⟩
        · exact fun step hstep => hname step (by simp [hstep])
        · exact fun step hstep => hsize step (by simp [hstep])
        · exact fun b' hb' hpre => hway b' (above_concat_iff.mpr ⟨hb', hpre⟩)
      rw [List.append_assoc, walk_append, hb]
      change d.walk (d.here ++ b) (x :: t) = _
      rw [walk, enter_name (hname x (by simp)),
        if_neg (Nat.not_lt.mpr (hsize x (by simp))), List.append_assoc, hc]
      rfl
  rw [entryAt, h.locate_eq hfits.usable hs, hwalk]
  rfl

end Path

/-! ## Trees -/

/-- Whatever stands on the disk stands in a directory. -/
def IsTree (d : Disk) : Prop :=
  ∀ x ∈ d.entries, x.1 ≠ [] → d.get? x.1.dropLast = some .directory

instance (d : Disk) : Decidable d.IsTree :=
  inferInstanceAs (Decidable (∀ x ∈ d.entries, _))

theorem IsTree.get?_parent (h : d.IsTree) {n : String}
    (hg : d.get? (p ++ [n]) ≠ none) : d.get? p = some .directory := by
  have hne : p ++ [n] ≠ [] := by simp
  rw [get?, if_neg hne] at hg
  obtain ⟨e, he⟩ := Option.ne_none_iff_exists'.mp hg
  obtain ⟨l1, l2, heq, -⟩ := List.lookup_eq_some_iff.mp he
  have hmem : (p ++ [n], e) ∈ d.entries := by
    rw [heq]
    simp
  have hdir := h _ hmem hne
  rw [List.dropLast_concat] at hdir
  exact hdir

/-- Everything above what stands on a tree is a directory. -/
theorem IsTree.get?_of_prefix (h : d.IsTree) {t : List String} (ht : t ≠ [])
    (hg : d.get? (p ++ t) ≠ none) : d.get? p = some .directory := by
  induction t using List.reverseRecOn with
  | nil => exact absurd rfl ht
  | append_singleton t n ih =>
      rw [← List.append_assoc] at hg
      have hdir := h.get?_parent hg
      by_cases ht' : t = []
      · rw [ht', List.append_nil] at hdir
        exact hdir
      · exact ih ht' (by simp [hdir])

/-- What stands at the place of a path can be reached. -/
def Rooted (d : Disk) (path : String) : Prop :=
  d.get? (d.placeOf path) ≠ none → d.Way path

theorem IsTree.get?_above (h : d.IsTree) {a b : List String}
    (ha : Path.Above a b) (hg : d.get? (d.here ++ b) ≠ none) :
    d.get? (d.here ++ a) = some .directory := by
  obtain ⟨-, ⟨t, rfl⟩, hne⟩ := ha
  rw [← List.append_assoc] at hg
  refine h.get?_of_prefix ?_ hg
  rintro rfl
  exact hne (List.append_nil a).symm

theorem IsTree.rooted (h : d.IsTree) (path : String) : d.Rooted path :=
  fun hg _ ha => h.get?_above ha hg

/-- On a tree, no file is on the way to what is not found. -/
theorem IsTree.clear_of_notFound (h : d.IsTree) (hp : Path.Plain path)
    (hfits : Path.Fits path) (he : d.entryAt path = .error .notFound) :
    d.Clear path := by
  intro a c ha hc
  have hfile := hp.entryAt_of_file_above hfits ha
    (fun b hb => h.get?_above hb (by simp [hc])) hc
  rw [he] at hfile
  exact nomatch hfile

/-- A path shows the same wherever the same stands at its place, if that can be
    reached. -/
theorem Path.Plain.shown_congr (h : Path.Plain path) (hr : d.Rooted path)
    (hr' : d'.Rooted path)
    (hg : d'.get? (d'.placeOf path) = d.get? (d.placeOf path)) :
    d'.shown path = d.shown path := by
  refine Option.ext ?_
  intro e
  rw [h.shown_eq_some_iff, h.shown_eq_some_iff, hg]
  constructor
  · rintro ⟨hfits, -, he⟩
    exact ⟨hfits, hr (by simp [he]), he⟩
  · rintro ⟨hfits, -, he⟩
    exact ⟨hfits, hr' (by simp [hg, he]), he⟩

end RiskExchange.Disk
