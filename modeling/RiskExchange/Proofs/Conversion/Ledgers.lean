import RiskExchange.Proofs.Conversion.Failures
import RiskExchange.Proofs.Conversion.Separate

/-! # Ledgers — conversions one after the other

    What a sequence of conversions leaves behind is kept in a `Ledger`: what
    each path shows, the keys of the store and what is decoded under each. A
    conversion that succeeds makes one record in it and a conversion that fails
    makes none, whatever it fails of (`Tracks.run`). The store is printed and
    read again by every conversion, so the ledger holds of the store only what
    survives that. -/

namespace RiskExchange.Conversion

open RiskExchange.CutSet (TermCode)
open RiskExchange.Disk
open RiskExchange.Disk.Session
open RiskExchange.Store (SequenceStore)
open RiskExchange.Store.SequenceStore (openAt)

/-! ## Sequences -/

/-- Conversions one after the other. -/
def runAll : List Request → Disk → Disk
  | [], d => d
  | r :: rest, d => runAll rest ((run r).after d)

/-- What conversions one after the other have done. -/
def log : List Request → Disk → List Done
  | [], _ => []
  | r :: rest, d => (done? r d).toList ++ log rest ((run r).after d)

/-! ## Ledgers -/

/-- What paths show, the keys of a store, and what is decoded under a key. -/
structure Ledger where
  shown : String → Option Entry
  keys : List String
  entry : String → Option (Option (List (List TermCode)))

namespace Ledger

/-- The ledger of a disk and of the store that is opened from it. -/
def ofDisk (d : Disk) (s : SequenceStore) : Ledger :=
  ⟨d.shown, s.keys, fun key => (s.entry key).toOption⟩

/-- The record that a successful conversion makes. -/
def record (l : Ledger) (x : Done) : Ledger where
  shown path :=
    if Path.Meets path x.request.output then some (.file x.document)
    else l.shown path
  keys := if x.key ∈ l.keys then l.keys else l.keys ++ [x.key]
  entry key :=
    if key = x.key then some (some x.assembly.logic.sequences)
    else l.entry key

/-- The last of some conversions that has written to a path. -/
def lastTo (path : String) (xs : List Done) : Option Done :=
  xs.reverse.find? fun x => Path.Meets path x.request.output

/-- The last of some conversions that has put its sequences under a key. -/
def lastUnder (key : String) (xs : List Done) : Option Done :=
  xs.reverse.find? fun x => key = x.key

/-- The keys that are not known yet, each where it comes first. -/
def newKeys (known keys : List String) : List String :=
  (keys.filter (· ∉ known)).eraseDups

variable (l : Ledger) (xs : List Done)

theorem shown_foldl_record (path : String) :
    (xs.foldl record l).shown path = match lastTo path xs with
      | some x => some (.file x.document)
      | none => l.shown path := by
  induction xs using List.reverseRecOn with
  | nil => rfl
  | append_singleton xs x ih =>
      rw [List.foldl_append, lastTo, List.reverse_append,
        List.reverse_singleton, List.singleton_append, List.find?_cons]
      change (if Path.Meets path x.request.output then _ else _) = _
      by_cases hx : Path.Meets path x.request.output
      · rw [if_pos hx, decide_eq_true hx]
      · rw [if_neg hx, decide_eq_false hx]
        exact ih

theorem entry_foldl_record (key : String) :
    (xs.foldl record l).entry key = match lastUnder key xs with
      | some x => some (some x.assembly.logic.sequences)
      | none => l.entry key := by
  induction xs using List.reverseRecOn with
  | nil => rfl
  | append_singleton xs x ih =>
      rw [List.foldl_append, lastUnder, List.reverse_append,
        List.reverse_singleton, List.singleton_append, List.find?_cons]
      change (if key = x.key then _ else _) = _
      by_cases hx : key = x.key
      · rw [if_pos hx, decide_eq_true hx]
      · rw [if_neg hx, decide_eq_false hx]
        exact ih

theorem mem_append_newKeys {key : String} {known keys : List String} :
    key ∈ known ++ newKeys known keys ↔ key ∈ known ∨ key ∈ keys := by
  rw [newKeys, List.mem_append, List.mem_eraseDups, List.mem_filter]
  by_cases hold : key ∈ known
  · simp [hold]
  · simp [hold]

/-- One more key is new if it is neither known nor among the others. -/
theorem newKeys_concat (known keys : List String) (key : String) :
    newKeys known (keys ++ [key]) = if key ∈ known ++ newKeys known keys
      then newKeys known keys else newKeys known keys ++ [key] := by
  have happ : newKeys known (keys ++ [key]) = newKeys known keys
      ++ (([key].filter (· ∉ known)).removeAll
        (keys.filter (· ∉ known))).eraseDups := by
    rw [newKeys, List.filter_append, List.eraseDups_append]
    rfl
  rw [happ]
  by_cases hold : key ∈ known
  · have hnone : [key].filter (· ∉ known) = [] := by simp [hold]
    rw [if_pos (List.mem_append_left _ hold), hnone]
    exact List.append_nil _
  · -- not known at first, so it matters whether it has come before
    have hone : [key].filter (· ∉ known) = [key] := by simp [hold]
    rw [hone]
    by_cases hnew : key ∈ keys
    · have hin : key ∈ keys.filter (· ∉ known) :=
        List.mem_filter.mpr ⟨hnew, by simpa using hold⟩
      rw [if_pos (mem_append_newKeys.mpr (.inr hnew)), List.removeAll,
        List.filter_cons_of_neg (by simpa using hin)]
      exact List.append_nil _
    · rw [if_neg (fun h => (mem_append_newKeys.mp h).elim hold hnew),
        List.removeAll, List.filter_cons_of_pos (by simp [hnew])]
      rfl

/-- New keys go behind the known ones in the order of their first records. -/
theorem keys_foldl_record : (xs.foldl record l).keys
    = l.keys ++ newKeys l.keys (xs.map Done.key) := by
  induction xs using List.reverseRecOn with
  | nil => exact (List.append_nil _).symm
  | append_singleton xs x ih =>
      rw [List.foldl_append, List.map_append, List.map_singleton,
        newKeys_concat]
      change (if x.key ∈ (xs.foldl record l).keys then _ else _) = _
      rw [ih]
      by_cases hx : x.key ∈ l.keys ++ newKeys l.keys (xs.map Done.key)
      · rw [if_pos hx, if_pos hx]
      · rw [if_neg hx, if_neg hx, List.append_assoc]

end Ledger

/-! ## Disks and ledgers -/

/-- The ledger says what the outputs show and what is in the store; the inputs
    are as they were on the first disk. -/
structure Tracks (st : String) (rs : List Request) (first d : Disk)
    (l : Ledger) : Prop where
  reachable : Reachable st rs d
  inputs : ∀ r ∈ rs, d.shown r.input = first.shown r.input
  outputs : ∀ r ∈ rs, d.shown r.output = l.shown r.output
  store : ∃ s, (openAt st).outcome d = .ok s ∧ s.keys = l.keys ∧
    ∀ key, (s.entry key).toOption = l.entry key

variable {r : Request} {rs : List Request} {st : String} {first d d' : Disk}
  {s : SequenceStore} {l : Ledger}

/-- A conversion that fails makes no record. -/
theorem Tracks.failed (h : Separate st rs) (ht : Tracks st rs first d l)
    (ho : (openAt st).outcome d = .ok s) (hf : Failed st rs d d' s) :
    Tracks st rs first d' l := by
  have hshown : ∀ path ∈ pathsOf st rs, Path.steps path ≠ Path.steps st →
      d'.shown path = d.shown path := by
    intro path hpath hne
    exact (h.plain path hpath).shown_congr (ht.reachable.rooted path hpath)
      (hf.reachable.rooted path hpath) (hf.same path hpath hne)
  refine ⟨hf.reachable, ?_, ?_, ?_⟩
  · intro r hr
    rw [hshown _ (input_mem_pathsOf hr) (h.storeInput r hr)]
    exact ht.inputs r hr
  · intro r hr
    rw [hshown _ (output_mem_pathsOf hr) (h.storeOutput r hr)]
    exact ht.outputs r hr
  · obtain ⟨s', ho', hkeys, hentry⟩ := ht.store
    rw [ho] at ho'
    cases ho'
    obtain ⟨t, hopen, hagrees⟩ := hf.store
    refine ⟨t, hopen, hagrees.keys.trans hkeys, ?_⟩
    exact fun key => (hagrees.entry key).trans (hentry key)

/-- After a success the outputs show what has been recorded. -/
private theorem Tracks.shown_of_succeeded (h : Separate st rs)
    (ht : Tracks st rs first d l) {x : Done}
    (hs : Succeeded st rs d d' s x) (hr : r ∈ rs) :
    d'.shown r.output = (l.record x).shown r.output := by
  have hpath : r.output ∈ pathsOf st rs := output_mem_pathsOf hr
  have hplain := h.plain r.output hpath
  have hrooted := hs.reachable.rooted r.output hpath
  change _ = if Path.Meets r.output x.request.output then _ else _
  by_cases hsteps : Path.steps r.output = Path.steps x.request.output
  · by_cases husable : Path.Usable r.output
    · rw [if_pos ⟨husable, hsteps⟩]
      have hfits : Path.Fits r.output := by
        refine ⟨husable, ?_⟩
        rw [hsteps]
        exact hs.fits.names
      have hdoc := hs.output
      rw [placeOf, ← hsteps, ← placeOf] at hdoc
      exact hplain.shown_eq_some_iff.mpr
        ⟨hfits, hrooted (by simp [hdoc]), hdoc⟩
    · -- the text is too long, so it shows nothing at any time
      rw [if_neg (fun hm => husable hm.1), ← ht.outputs r hr]
      have hnone (x : Disk) : x.shown r.output = none := by
        refine Option.eq_none_iff_forall_ne_some.mpr ?_
        intro e he
        exact husable (hplain.shown_eq_some_iff.mp he).1.usable
      rw [hnone, hnone]
  · rw [if_neg (fun hm => hsteps hm.2), ← ht.outputs r hr]
    exact hplain.shown_congr (ht.reachable.rooted r.output hpath) hrooted
      (hs.same r.output hpath (h.storeOutput r hr) hsteps)

/-- After a success the store holds what has been recorded. -/
private theorem Tracks.store_of_succeeded (ht : Tracks st rs first d l)
    (ho : (openAt st).outcome d = .ok s) {x : Done}
    (hs : Succeeded st rs d d' s x) :
    ∃ t, (openAt st).outcome d' = .ok t ∧ t.keys = (l.record x).keys ∧
      ∀ key, (t.entry key).toOption = (l.record x).entry key := by
  obtain ⟨s', ho', hkeys, hentry⟩ := ht.store
  rw [ho] at ho'
  cases ho'
  obtain ⟨t, hopen, hagrees⟩ := hs.store
  refine ⟨t, hopen, ?_, ?_⟩
  · rw [hagrees.keys, SequenceStore.keys_insert, hkeys]
    rfl
  · intro key
    change _ = if key = x.key then _ else _
    rw [hagrees.entry]
    by_cases hkey : key = x.key
    · rw [if_pos hkey, hkey]
      exact SequenceStore.toOption_entry_insert_self s _
    · rw [if_neg hkey, ← hentry key]
      exact SequenceStore.toOption_entry_insert_of_ne hkey

/-- A conversion that succeeds makes one. -/
theorem Tracks.succeeded (h : Separate st rs) (ht : Tracks st rs first d l)
    (ho : (openAt st).outcome d = .ok s) {x : Done} (hx : x.request ∈ rs)
    (hs : Succeeded st rs d d' s x) : Tracks st rs first d' (l.record x) := by
  refine ⟨hs.reachable, ?_, fun r hr => ht.shown_of_succeeded h hs hr,
    ht.store_of_succeeded ho hs⟩
  intro r hr
  have hpath : r.input ∈ pathsOf st rs := input_mem_pathsOf hr
  rw [← ht.inputs r hr]
  exact (h.plain r.input hpath).shown_congr
    (ht.reachable.rooted r.input hpath) (hs.reachable.rooted r.input hpath)
    (hs.same r.input hpath (h.storeInput r hr) (h.inputOutput r hr _ hx))

/-- One conversion. -/
theorem Tracks.run (h : Separate st rs) (hfits : Path.Fits st)
    (ht : Tracks st rs first d l) (hr : r ∈ rs) :
    Tracks st rs first ((run r).after d)
      ((done? r d).toList.foldl Ledger.record l) ∧
    ∀ x ∈ (done? r d).toList,
      (assemble x.request).outcome first = .ok x.assembly := by
  obtain ⟨s, ho, -⟩ := ht.store
  rcases h.run_cases hr ht.reachable hfits ho with
    ⟨hnone, hfailed⟩ | ⟨a, hsome, ha, hsucceeded⟩
  · rw [hnone]
    exact ⟨ht.failed h ho hfailed, fun x hx => nomatch hx⟩
  · rw [hsome]
    refine ⟨ht.succeeded h ho hr hsucceeded, ?_⟩
    intro x hx
    rw [List.mem_singleton.mp hx]
    exact assemble_of_shown ha (ht.inputs r hr).symm

/-- Conversions one after the other. -/
theorem Tracks.runAll (h : Separate st rs) (hfits : Path.Fits st)
    (ht : Tracks st rs first d l) {todo : List Request}
    (hsub : ∀ r ∈ todo, r ∈ rs) :
    Tracks st rs first (runAll todo d) ((log todo d).foldl Ledger.record l) ∧
    ∀ x ∈ log todo d,
      (assemble x.request).outcome first = .ok x.assembly := by
  induction todo generalizing d l with
  | nil => exact ⟨ht, fun x hx => nomatch hx⟩
  | cons r rest ih =>
      obtain ⟨hone, hmodel⟩ := ht.run h hfits (hsub r (List.mem_cons_self ..))
      obtain ⟨hrest, hmodels⟩ :=
        ih hone (fun r' hr' => hsub r' (List.mem_cons_of_mem _ hr'))
      rw [log, List.foldl_append]
      refine ⟨hrest, ?_⟩
      intro x hx
      rcases List.mem_append.mp hx with hx | hx
      · exact hmodel x hx
      · exact hmodels x hx

/-- On a tree on which the store can be opened, the ledger of the disk itself
    tracks it. -/
theorem Separate.tracks (h : Separate st rs) (hfits : Path.Fits st)
    (htree : d.IsTree) (ho : (openAt st).outcome d = .ok s) :
    Tracks st rs d d (Ledger.ofDisk d s) :=
  ⟨⟨fun path _ => htree.rooted path, SequenceStore.clear_of_openAt
      (h.plain st store_mem_pathsOf) hfits htree ho⟩,
    fun _ _ => rfl, fun _ _ => rfl, s, ho, rfl, fun _ => rfl⟩

/-! ## What a sequence leaves behind -/

open Ledger (lastTo lastUnder newKeys)

/-- Conversions one after the other update a map. Every output shows the
    document of the last success that was written to it, or what it showed at
    first. The store can be opened again; its keys are the first ones, then the
    new ones in the order of their first successes; under each key are the
    sequences of its last success, or what was decoded there at first. What a
    success has written is the model of its input, which nothing changes. -/
theorem successes_update_map (h : Separate st rs) (htree : d.IsTree)
    (hnames : ∀ step ∈ Path.steps st, step.utf8ByteSize ≤ maxNameSize)
    (ho : (openAt st).outcome d = .ok s) :
    (∀ x ∈ log rs d, (assemble x.request).outcome d = .ok x.assembly) ∧
    (∀ r ∈ rs, (runAll rs d).shown r.output
      = match lastTo r.output (log rs d) with
        | some x => some (.file x.document)
        | none => d.shown r.output) ∧
    ∃ t, (openAt st).outcome (runAll rs d) = .ok t ∧
      t.keys = s.keys ++ newKeys s.keys ((log rs d).map Done.key) ∧
      ∀ key, (t.entry key).toOption
        = match lastUnder key (log rs d) with
          | some x => some (some x.assembly.logic.sequences)
          | none => (s.entry key).toOption := by
  have hplain := h.plain st store_mem_pathsOf
  have hfits : Path.Fits st :=
    ⟨SequenceStore.usable_of_openAt hplain.ne_empty ho, hnames⟩
  obtain ⟨hend, hmodels⟩ := (h.tracks hfits htree ho).runAll h hfits
    (fun r hr => hr)
  obtain ⟨t, hopen, hkeys, hentry⟩ := hend.store
  refine ⟨hmodels, ?_, t, hopen, ?_, ?_⟩
  · intro r hr
    rw [hend.outputs r hr, Ledger.shown_foldl_record]
    rfl
  · rw [hkeys, Ledger.keys_foldl_record]
    rfl
  · intro key
    rw [hentry key, Ledger.entry_foldl_record]
    rfl

/-- Two successes at one path, spelled with one slash and with two, and a
    failure between them. -/
def threeCalls : List Request :=
  [toOutput "new/a.xml", toOutput "out", toOutput "new//a.xml"]

/-- An entry of another shape stays behind which the new one goes, and a
    directory stays where it is. -/
theorem successes_update_map_of_three :
    ∃ t, (openAt "store.json").outcome
        (runAll threeCalls (workbench "\x7b\"Z\":1\x7d")) = .ok t ∧
      t.keys = ["Z", "T-0"] ∧ (t.entry "Z").toOption = none ∧
      (runAll threeCalls (workbench "\x7b\"Z\":1\x7d")).shown "out"
        = some .directory := by
  -- the sequence is run once for its log, and the theorem says the rest
  generalize hd : workbench "\x7b\"Z\":1\x7d" = d
  have hlog : (log threeCalls d).map Done.key = ["T-0", "T-0"] := by
    rw [← hd]
    decide +kernel
  have hnone : lastUnder "Z" (log threeCalls d) = none ∧
      lastTo "out" (log threeCalls d) = none := by
    rw [← Option.isNone_iff_eq_none, ← Option.isNone_iff_eq_none, ← hd]
    decide +kernel
  have hstore : ((openAt "store.json").outcome d).toOption.map
      (fun s => (s.keys, (s.entry "Z").toOption)) = some (["Z"], none) := by
    rw [← hd]
    decide +kernel
  have hshown : d.shown "out" = some .directory := by
    rw [← hd]
    decide +kernel
  have htree : d.IsTree := by
    rw [← hd]
    decide +kernel
  cases ho : (openAt "store.json").outcome d with
  | error e =>
      rw [ho] at hstore
      exact nomatch hstore
  | ok s =>
      rw [ho] at hstore
      obtain ⟨hkeys, hentry⟩ := Prod.mk.inj (Option.some.inj hstore)
      have hsep : Separate "store.json" threeCalls := by decide +kernel
      obtain ⟨-, houts, t, hopen, ht, hentries⟩ :=
        successes_update_map hsep htree (by decide +kernel) ho
      refine ⟨t, hopen, ?_, ?_, ?_⟩
      · rw [ht, hkeys, hlog]
        decide +kernel
      · rw [hentries "Z", hnone.1]
        exact hentry
      · have hout := houts (toOutput "out") (by decide)
        change (runAll threeCalls d).shown "out"
          = match lastTo "out" (log threeCalls d) with
            | some x => some (.file x.document)
            | none => d.shown "out" at hout
        rw [hout, hnone.2]
        exact hshown

/-! ## Names that are too long -/

/-- The parts of a path whose last one has 256 bytes. -/
def longParts : List (List Char) :=
  ["missing".toList, List.replicate 256 'x']

/-- A store of such a name in a directory that is not there yet. -/
def longStore : String := Path.ofSegments longParts

/-- A conversion that makes this directory for its output. -/
def toLong : Request := ⟨"in.json", "missing/o.xml", ⟨longStore, 0⟩⟩

private theorem segments_longStore : Path.segments longStore = longParts :=
  Path.segments_ofSegments (by decide +kernel) (by decide +kernel)

private theorem steps_longStore :
    Path.steps longStore
      = ["missing"] ++ [String.ofList (List.replicate 256 'x')] := by
  rw [Path.steps, segments_longStore]
  decide +kernel

private theorem plain_longStore : Path.Plain longStore := by
  constructor
  · rw [segments_longStore]
    decide +kernel
  · rw [segments_longStore]
    decide +kernel
  · rw [segments_longStore]
    decide +kernel

private theorem usable_longStore : Path.Usable longStore := by
  have htext : longStore.toList = Path.joinSlashes longParts :=
    String.toList_ofList
  refine ⟨?_, plain_longStore.ne_empty, ?_⟩
  · rw [htext]
    decide +kernel
  · decide +kernel

private theorem separate_toLong : Separate longStore [toLong] := by
  have hpaths : pathsOf longStore [toLong]
      = [longStore, "in.json", "missing/o.xml"] := rfl
  have hin : Path.steps "in.json" = ["in.json"] := by decide +kernel
  have hout : Path.steps "missing/o.xml" = ["missing", "o.xml"] := by
    decide +kernel
  constructor
  · simp [toLong]
  · simp only [hpaths, List.forall_mem_cons]
    refine ⟨plain_longStore, ?_⟩
    decide +kernel
  · simp only [hpaths, List.forall_mem_cons, hin, hout, steps_longStore]
    decide +kernel
  · simp only [List.forall_mem_singleton, toLong, hin, steps_longStore]
    decide +kernel
  · simp only [List.forall_mem_singleton, toLong, hout, steps_longStore]
    decide +kernel
  · simp only [List.forall_mem_singleton, toLong, hin, hout]
    decide +kernel

/-- The name is not looked up while its directory is missing. -/
private theorem entryAt_longStore :
    (workbench "\x7b\x7d").entryAt longStore = .error .notFound := by
  have hw : (workbench "\x7b\x7d").walk ["w"] ["missing"]
      = .error .notFound := by decide +kernel
  rw [entryAt, plain_longStore.locate_eq usable_longStore steps_longStore]
  change (((workbench "\x7b\x7d").walk ["w"] ["missing"]).map _ >>= _) = _
  rw [hw]
  rfl

/-- A conversion that cannot use the store has made its directory anyhow. -/
private theorem way_longStore :
    (runAll [toLong] (workbench "\x7b\x7d")).Way longStore := by
  have hlong : ¬ Path.Fits longStore := by
    intro hfits
    have hnames := hfits.names
    rw [steps_longStore] at hnames
    have hname := hnames _ (List.mem_append_right _ (List.mem_singleton_self _))
    exact absurd hname (by decide +kernel)
  -- to come to the move, the store would have to be saved under that name
  have herror : ∃ e, (upToMove toLong).outcome (workbench "\x7b\x7d")
      = .error e := by
    cases hu : (upToMove toLong).outcome (workbench "\x7b\x7d") with
    | error e => exact ⟨e, rfl⟩
    | ok m =>
        obtain ⟨S, hS⟩ := saved_of_upToMove hu
        exact absurd (plain_longStore.leads_iff.mp hS.leads).1 hlong
  obtain ⟨e, hu⟩ := herror
  have ha : ((assemble toLong).outcome
      (workbench "\x7b\x7d")).toOption.isSome = true := by decide +kernel
  cases hm : (assemble toLong).outcome (workbench "\x7b\x7d") with
  | error e =>
      rw [hm] at ha
      exact nomatch ha
  | ok a =>
      have hc := upToMove_error_of_assembled hm hu
      have hmade : ((workbench "\x7b\x7d").createDirAll
          (Path.directoryOf toLong.output)).1.get? ["w", "missing"]
            = some .directory := by decide +kernel
      -- and the directory of the output, made before that, has stayed
      have hdir := hc.get?_eq (fun hp => nomatch hp) hmade
      have hhere := (upToMove_error hu).here
      intro b hb
      rw [steps_longStore] at hb
      obtain ⟨hne, hpre⟩ := Path.above_concat_iff.mp hb
      rw [runAll, runAll, (run_of_error hu).2, hhere]
      rcases List.prefix_cons_iff.mp hpre with rfl | ⟨t, rfl, ht⟩
      · exact absurd rfl hne
      · rw [List.prefix_nil.mp ht]
        exact hdir

/-- A store whose name is too long counts as absent while its directory is
    missing, and it cannot be opened once a conversion has made that. -/
theorem reopening_fails_behind_long_name :
    Separate longStore [toLong] ∧ (workbench "\x7b\x7d").IsTree ∧
      (openAt longStore).outcome (workbench "\x7b\x7d")
        = .ok ⟨longStore, [], false⟩ ∧
      ¬ ∃ t, (openAt longStore).outcome
        (runAll [toLong] (workbench "\x7b\x7d")) = .ok t := by
  refine ⟨separate_toLong, by decide +kernel, ?_, ?_⟩
  · exact SequenceStore.openAt_eq_ok_iff.mpr
      (.inr ⟨entryAt_longStore, rfl⟩)
  · rintro ⟨t, ht⟩
    have hrefused := plain_longStore.entryAt_of_long_name usable_longStore
      steps_longStore (by decide +kernel) (by decide +kernel) way_longStore
    rcases SequenceStore.openAt_eq_ok_iff.mp ht with
      ⟨c, entries, hc, -, -⟩ | ⟨hn, -⟩
    · rw [hrefused] at hc
      exact nomatch hc
    · rw [hrefused] at hn
      exact nomatch hn

end RiskExchange.Conversion
