import RiskExchange.Proofs.Conversion.Outcomes
import RiskExchange.Proofs.Store.Reopening

/-! # Separate conversions — one conversion among others on a store

    Conversions are separate if their paths are plain, do not lead through each
    other and are not both read and written. Then a conversion that fails
    leaves at every path what it has found, and one that succeeds changes its
    output and its entry and nothing else (`Separate.run_cases`). -/

namespace RiskExchange.Conversion

open RiskExchange.Disk
open RiskExchange.Disk.Session
open RiskExchange.Store (SequenceStore)
open RiskExchange.Store.SequenceStore (openAt Agrees)

variable {r : Request} {rs : List Request} {st : String} {d d' : Disk}
  {m : Prepared} {s t : SequenceStore} {touched : Set Place}

/-! ## What a conversion has done -/

/-- A conversion that has succeeded, and the model that it has written. -/
structure Done where
  request : Request
  assembly : Model.Assembly

/-- The document that a conversion has written. -/
def Done.document (x : Done) : ByteArray :=
  (x.assembly.model.render x.request.settings.indent).toUTF8

/-- The key under which a conversion has put its sequences. -/
def Done.key (x : Done) : String := x.assembly.logic.key

/-- What a conversion has done, if it succeeds. -/
def done? (r : Request) (d : Disk) : Option Done :=
  match (run r).outcome d with
  | .ok _ => ((assemble r).outcome d).toOption.map (⟨r, ·⟩)
  | .error _ => none

/-- The model of a conversion depends on nothing but what is read at its
    input. -/
theorem assemble_congr (h : d'.entryAt r.input = d.entryAt r.input) :
    (assemble r).outcome d' = (assemble r).outcome d := by
  have hload : (Solver.Solution.load r.input).outcome d'
      = (Solver.Solution.load r.input).outcome d := by
    rw [Solver.Solution.load, outcome_bind_of_ok (outcome_query _ d'),
      outcome_bind_of_ok (outcome_query _ d), after_query, after_query, h]
    cases d.entryAt r.input with
    | error e =>
        cases e
        case notFound => rfl
        all_goals rfl
    | ok e =>
        cases e with
        | directory => rfl
        | file c => rfl
  rw [assemble,
    outcome_bind, outcome_bind, outcome_mapError, outcome_mapError, hload]
  cases (Solver.Solution.load r.input).outcome d with
  | error e => rfl
  | ok solution => rfl

/-- A model is assembled from what the input shows. -/
theorem shown_of_assemble {a : Model.Assembly}
    (h : (assemble r).outcome d = .ok a) :
    ∃ e, d.shown r.input = some e := by
  obtain ⟨solution, hload, -⟩ := outcome_bind_ok h
  cases he : d.entryAt r.input with
  | ok e => exact ⟨e, shown_eq_some_iff.mpr he⟩
  | error f =>
      rw [Solver.Solution.load] at hload
      rw [outcome_mapError, outcome_bind_of_ok (outcome_query _ d), he]
        at hload
      cases f
      case notFound => cases hload
      all_goals cases hload

/-- The model of a conversion is the same wherever its input shows the
    same. -/
theorem assemble_of_shown {a : Model.Assembly}
    (h : (assemble r).outcome d = .ok a)
    (hin : d'.shown r.input = d.shown r.input) :
    (assemble r).outcome d' = .ok a := by
  obtain ⟨e, he⟩ := shown_of_assemble h
  rw [he] at hin
  have hsame := (shown_eq_some_iff.mp hin).trans
    (shown_eq_some_iff.mp he).symm
  rw [assemble_congr hsame, h]

/-! ## Separate paths -/

/-- The paths of some conversions on a store. -/
def pathsOf (st : String) (rs : List Request) : List String :=
  st :: rs.flatMap fun r => [r.input, r.output]

theorem store_mem_pathsOf : st ∈ pathsOf st rs := List.mem_cons_self ..

theorem input_mem_pathsOf (hr : r ∈ rs) : r.input ∈ pathsOf st rs :=
  List.mem_cons_of_mem _ (List.mem_flatMap.mpr ⟨r, hr, List.mem_cons_self ..⟩)

theorem output_mem_pathsOf (hr : r ∈ rs) : r.output ∈ pathsOf st rs :=
  List.mem_cons_of_mem _ (List.mem_flatMap.mpr
    ⟨r, hr, List.mem_cons_of_mem _ (List.mem_cons_self ..)⟩)

/-- Conversions on one store whose paths are plain, do not lead through each
    other and are not both read and written, the store's included. -/
structure Separate (st : String) (rs : List Request) : Prop where
  store : ∀ r ∈ rs, r.settings.sequenceStore = st
  plain : ∀ path ∈ pathsOf st rs, Path.Plain path
  flat : ∀ path ∈ pathsOf st rs, ∀ other ∈ pathsOf st rs,
    ¬ Path.Above (Path.steps path) (Path.steps other)
  storeInput : ∀ r ∈ rs, Path.steps r.input ≠ Path.steps st
  storeOutput : ∀ r ∈ rs, Path.steps r.output ≠ Path.steps st
  inputOutput : ∀ r ∈ rs, ∀ r' ∈ rs,
    Path.steps r.input ≠ Path.steps r'.output

instance (st : String) (rs : List Request) : Decidable (Separate st rs) :=
  decidable_of_iff ((∀ r ∈ rs, r.settings.sequenceStore = st) ∧
      (∀ path ∈ pathsOf st rs, Path.Plain path) ∧
      (∀ path ∈ pathsOf st rs, ∀ other ∈ pathsOf st rs,
        ¬ Path.Above (Path.steps path) (Path.steps other)) ∧
      (∀ r ∈ rs, Path.steps r.input ≠ Path.steps st) ∧
      (∀ r ∈ rs, Path.steps r.output ≠ Path.steps st) ∧
      (∀ r ∈ rs, ∀ r' ∈ rs, Path.steps r.input ≠ Path.steps r'.output))
    ⟨fun ⟨h1, h2, h3, h4, h5, h6⟩ => ⟨h1, h2, h3, h4, h5, h6⟩,
      fun ⟨h1, h2, h3, h4, h5, h6⟩ => ⟨h1, h2, h3, h4, h5, h6⟩⟩

/-- Directories are made above the output and the store only. -/
theorem Separate.above_of_mayMake (h : Separate st rs) (hr : r ∈ rs)
    {here p : Place} (hp : p ∈ Path.mayMake here r.pathsAbove) :
    ∃ path ∈ pathsOf st rs, ∃ a, Path.Above a (Path.steps path) ∧
      p = here ++ a := by
  obtain ⟨up, hup, hp⟩ := hp
  rcases List.mem_append.mp hup with hout | hst
  · have hplain := h.plain _ (output_mem_pathsOf hr)
    exact ⟨_, output_mem_pathsOf hr,
      (hplain.leading_of_directoryOf hout).above_of_mayName hp⟩
  · have hplain : Path.Plain st := h.plain st store_mem_pathsOf
    rw [h.store r hr, SequenceStore.pathsAbove] at hst
    cases hnext : Path.parent? st with
    | none =>
        rw [hnext] at hst
        exact absurd hst List.not_mem_nil
    | some next =>
        rw [hnext] at hst
        exact ⟨_, store_mem_pathsOf,
          (hplain.leading_of_parent hnext hst).above_of_mayName hp⟩

/-- What stands at the place of a path changes only if it is written to. -/
theorem Separate.get?_eq (h : Separate st rs) (hr : r ∈ rs)
    (hc : Changes (Path.mayMake d.here r.pathsAbove) touched d d')
    {path : String} (hpath : path ∈ pathsOf st rs)
    (ht : d.placeOf path ∉ touched) :
    d'.get? (d'.placeOf path) = d.get? (d.placeOf path) := by
  rw [placeOf, hc.here, ← placeOf]
  rcases hc.keeps _ ht with heq | ⟨-, -, hmade⟩
  · exact heq
  · obtain ⟨other, hother, a, ha, hp⟩ := h.above_of_mayMake hr hmade
    rw [← List.append_cancel_left hp] at ha
    exact absurd ha (h.flat _ hpath _ hother)

/-- Two paths with different steps have different places. -/
theorem placeOf_ne {path other : String}
    (h : Path.steps path ≠ Path.steps other) :
    d.placeOf path ≠ d.placeOf other :=
  fun heq => h (List.append_cancel_left heq)

/-! ## What stays as it is -/

/-- What stands at the place of a path can be reached, and no file is on the
    way to the store. -/
structure Reachable (st : String) (rs : List Request) (d : Disk) : Prop where
  rooted : ∀ path ∈ pathsOf st rs, d.Rooted path
  clear : d.Clear st

/-- Paths stay reachable if only places of paths are written to, which are
    reachable then. -/
theorem Separate.reachable (h : Separate st rs) (hr : r ∈ rs)
    (hd : Reachable st rs d)
    (hc : Changes (Path.mayMake d.here r.pathsAbove) touched d d')
    (hk : KeepsDirectories d d')
    (ht : ∀ p ∈ touched, ∃ path ∈ pathsOf st rs,
      p = d.placeOf path ∧ d'.Way path) : Reachable st rs d' := by
  refine ⟨?_, ?_⟩
  · intro path hpath hg
    by_cases hp : d.placeOf path ∈ touched
    · obtain ⟨other, -, heq, hway⟩ := ht _ hp
      have hsteps : Path.steps path = Path.steps other :=
        List.append_cancel_left heq
      intro a ha
      rw [hsteps] at ha
      exact hway a ha
    · rw [h.get?_eq hr hc hpath hp] at hg
      exact (hd.rooted path hpath hg).mono hk
  · intro a c ha hfile
    rw [hc.here] at hfile
    -- paths do not lead through each other, so the file was there before
    have hnot : d.here ++ a ∉ touched := by
      intro hmem
      obtain ⟨other, hother, heq, -⟩ := ht _ hmem
      rw [List.append_cancel_left heq] at ha
      exact h.flat _ hother _ store_mem_pathsOf ha
    exact hd.clear a c ha (hc.file_of_file hnot hfile)

private theorem eq_of_fields (hpath : s.path = t.path)
    (hentries : s.entries = t.entries) (hdisk : s.onDisk = t.onDisk) :
    s = t := by
  cases s
  cases t
  cases hpath
  cases hentries
  cases hdisk
  rfl

/-- What a conversion opens is the store as it was before the conversion. -/
theorem Separate.before_eq (h : Separate st rs) (hr : r ∈ rs)
    (hd : Reachable st rs d) (hfits : Path.Fits st)
    (ho : (openAt st).outcome d = .ok s) {S : Place}
    (hS : Saved r d m S) : S = d.placeOf st ∧ m.before = s := by
  have hst := h.plain st store_mem_pathsOf
  have hleads := hS.leads
  rw [h.store r hr] at hleads
  have hplace : S = d.placeOf st := by
    rw [(hst.leads_iff.mp hleads).2.2, placeOf, hS.changes.here, ← placeOf]
  refine ⟨hplace, ?_⟩
  have hrooted := hd.rooted st store_mem_pathsOf
  have hpath := hS.path
  have hon := hS.onDisk
  have hoff := hS.empty
  have hshown := hS.shown
  rw [h.store r hr] at hpath hon hshown
  rw [hplace] at hon hshown
  -- what stands at the store's place settles both what was opened then and
  -- what the conversion has opened
  have hopen := (SequenceStore.openAt_iff_of_clear hst hfits hd.clear
    hrooted).mp ho
  rcases hopen with ⟨c, read, hc, hread, rfl⟩ | ⟨hnone, rfl⟩
  · have hsome : d.shown st = some (.file c) :=
      hst.shown_eq_some_iff.mpr ⟨hfits, hrooted (by simp [hc]), hc⟩
    have hdisk := (hshown _ hsome).1
    obtain ⟨c', hc', hread'⟩ := hon hdisk
    rw [hc] at hc'
    cases hc'
    rw [hread] at hread'
    exact eq_of_fields hpath (Except.ok.inj hread').symm hdisk
  · cases hdisk : m.before.onDisk with
    | true =>
        obtain ⟨c, hc, -⟩ := hon hdisk
        rw [hnone] at hc
        cases hc
    | false => exact eq_of_fields hpath (hoff hdisk) hdisk

/-! ## One conversion -/

/-- A conversion that fails leaves a store that agrees with the one before, and
    everything else in its place. -/
structure Failed (st : String) (rs : List Request) (d d' : Disk)
    (s : SequenceStore) : Prop where
  reachable : Reachable st rs d'
  same : ∀ path ∈ pathsOf st rs, Path.steps path ≠ Path.steps st →
    d'.get? (d'.placeOf path) = d.get? (d.placeOf path)
  store : ∃ t, (openAt st).outcome d' = .ok t ∧ Agrees s t

/-- A conversion that succeeds leaves its document at the output, a store with
    its entry, and everything else in its place. -/
structure Succeeded (st : String) (rs : List Request) (d d' : Disk)
    (s : SequenceStore) (x : Done) : Prop where
  reachable : Reachable st rs d'
  fits : Path.Fits x.request.output
  output : d'.get? (d'.placeOf x.request.output) = some (.file x.document)
  same : ∀ path ∈ pathsOf st rs, Path.steps path ≠ Path.steps st →
    Path.steps path ≠ Path.steps x.request.output →
    d'.get? (d'.placeOf path) = d.get? (d.placeOf path)
  store : ∃ t, (openAt st).outcome d' = .ok t ∧
    Agrees (s.insert x.assembly.logic) t

theorem Separate.failed_of_upToMove (h : Separate st rs) (hr : r ∈ rs)
    (hd : Reachable st rs d) (hfits : Path.Fits st)
    (ho : (openAt st).outcome d = .ok s) {e : ConversionError}
    (hu : (upToMove r).outcome d = .error e) :
    Failed st rs d ((run r).after d) s := by
  have hst := h.plain st store_mem_pathsOf
  have hc := upToMove_error hu
  rw [(run_of_error hu).2]
  have hnot : ∀ p, p ∉ (∅ : Set Place) := fun p hp => nomatch hp
  have hreach := h.reachable hr hd hc
    (hc.keepsDirectories (fun p hp => nomatch hp)) (fun p hp => nomatch hp)
  have hsame := h.get?_eq hr hc store_mem_pathsOf (hnot _)
  refine ⟨hreach, fun path hpath _ => h.get?_eq hr hc hpath (hnot _), s, ?_,
    SequenceStore.Agrees.refl s⟩
  rw [SequenceStore.openAt_iff_of_clear hst hfits hreach.clear
    (hreach.rooted st store_mem_pathsOf), hsame]
  exact (SequenceStore.openAt_iff_of_clear hst hfits hd.clear
    (hd.rooted st store_mem_pathsOf)).mp ho

theorem Separate.failed_of_refused (h : Separate st rs) (hr : r ∈ rs)
    (hd : Reachable st rs d) (hfits : Path.Fits st)
    (ho : (openAt st).outcome d = .ok s) {f : Failure}
    (hu : (upToMove r).outcome d = .ok m)
    (hf : ((upToMove r).after d).moveFile m.staged r.output = .error f) :
    Failed st rs d ((run r).after d) s := by
  have hst := h.plain st store_mem_pathsOf
  obtain ⟨S, hS⟩ := saved_of_upToMove hu
  obtain ⟨rfl, hbefore⟩ := h.before_eq hr hd hfits ho hS
  obtain ⟨-, hc, hrest, hk, -⟩ := outcome_of_refused hu hS hf
  have hleads := hS.leads.mono hk
  rw [h.store r hr] at hleads
  have hreach := h.reachable hr hd hc (hS.directories.trans hk) (by
    intro p hp
    exact ⟨st, store_mem_pathsOf, Set.mem_singleton_iff.mp hp,
      (hst.leads_iff.mp hleads).2.1⟩)
  refine ⟨hreach, ?_, ?_⟩
  · intro path hpath hne
    refine h.get?_eq hr hc hpath ?_
    intro hmem
    exact placeOf_ne hne (Set.mem_singleton_iff.mp hmem)
  · -- the rollback has saved the store, or removed it if it was not there
    have hrooted := hreach.rooted st store_mem_pathsOf
    have hempty := hS.empty
    rw [hbefore] at hrest hempty
    rw [placeOf, ← hc.here, ← placeOf, restored] at hrest
    cases hon : s.onDisk with
    | true =>
        rw [hon, if_pos rfl] at hrest
        exact ⟨_, SequenceStore.openAt_of_saved hst hfits hreach.clear hrooted
          (SequenceStore.storable_of_openAt ho) hrest,
          SequenceStore.agrees_of_reread rfl⟩
    | false =>
        rw [hon, if_neg Bool.false_ne_true] at hrest
        refine ⟨⟨st, [], false⟩, ?_, SequenceStore.agrees_of_reread ?_⟩
        · exact (SequenceStore.openAt_iff_of_clear hst hfits hreach.clear
            hrooted).mpr (.inr ⟨hrest, rfl⟩)
        · rw [hempty hon]
          rfl

theorem Separate.succeeded_of_moved (h : Separate st rs) (hr : r ∈ rs)
    (hd : Reachable st rs d) (hfits : Path.Fits st)
    (ho : (openAt st).outcome d = .ok s)
    (hu : (upToMove r).outcome d = .ok m)
    (hm : ((upToMove r).after d).moveFile m.staged r.output = .ok d') :
    Succeeded st rs d ((run r).after d) s ⟨r, m.assembly⟩ := by
  have hst := h.plain st store_mem_pathsOf
  have hout := h.plain r.output (output_mem_pathsOf hr)
  obtain ⟨S, hS⟩ := saved_of_upToMove hu
  obtain ⟨rfl, hbefore⟩ := h.before_eq hr hd hfits ho hS
  obtain ⟨O, -, hO, hc, hdoc, hsaved, hk⟩ := outcome_of_moved hu hS hm
  -- the place of the output is named by its path, not found by the move
  have hplace : O = d.placeOf r.output := by
    rw [(hout.leads_iff.mp hO).2.2, placeOf, hS.changes.here, ← placeOf]
  subst hplace
  have hleads := hS.leads.mono hk
  rw [h.store r hr] at hleads
  have hreach := h.reachable hr hd hc (hS.directories.trans hk) (by
    rintro p (rfl | hp)
    · exact ⟨st, store_mem_pathsOf, rfl, (hst.leads_iff.mp hleads).2.1⟩
    · exact ⟨r.output, output_mem_pathsOf hr, Set.mem_singleton_iff.mp hp,
        (hout.leads_iff.mp (hO.mono hk)).2.1⟩)
  refine ⟨hreach, (hout.leads_iff.mp hO).1, ?_, ?_, ?_⟩
  · rw [placeOf, hc.here, ← placeOf]
    exact hdoc
  · intro path hpath hne hne'
    refine h.get?_eq hr hc hpath ?_
    rintro (hmem | hmem)
    · exact placeOf_ne hne hmem
    · exact placeOf_ne hne' (Set.mem_singleton_iff.mp hmem)
  · have hcontent := hsaved (placeOf_ne (h.storeOutput r hr).symm)
    rw [hbefore, placeOf, ← hc.here, ← placeOf] at hcontent
    exact ⟨_, SequenceStore.openAt_of_saved hst hfits hreach.clear
      (hreach.rooted st store_mem_pathsOf)
      (SequenceStore.storable_insert (SequenceStore.storable_of_openAt ho) _)
      hcontent, SequenceStore.agrees_of_reread rfl⟩

/-- A conversion fails and leaves what it has found, or it succeeds and leaves
    its document and its entry besides. -/
theorem Separate.run_cases (h : Separate st rs) (hr : r ∈ rs)
    (hd : Reachable st rs d) (hfits : Path.Fits st)
    (ho : (openAt st).outcome d = .ok s) :
    (done? r d = none ∧ Failed st rs d ((run r).after d) s) ∨
    (∃ a, done? r d = some ⟨r, a⟩ ∧ (assemble r).outcome d = .ok a ∧
      Succeeded st rs d ((run r).after d) s ⟨r, a⟩) := by
  cases hu : (upToMove r).outcome d with
  | error e =>
      refine .inl ⟨?_, h.failed_of_upToMove hr hd hfits ho hu⟩
      rw [done?, (run_of_error hu).1]
  | ok m =>
      obtain ⟨S, hS⟩ := saved_of_upToMove hu
      cases hf : ((upToMove r).after d).moveFile m.staged r.output with
      | error f =>
          refine .inl ⟨?_, h.failed_of_refused hr hd hfits ho hu hf⟩
          rw [done?, (outcome_of_refused hu hS hf).1]
      | ok d' =>
          obtain ⟨O, hok, -⟩ := outcome_of_moved hu hS hf
          refine .inr ⟨m.assembly, ?_, hS.assembled,
            h.succeeded_of_moved hr hd hfits ho hu hf⟩
          rw [done?, hok, hS.assembled]
          rfl

end RiskExchange.Conversion
