import RiskExchange.CommandLine.Run
import RiskExchange.Proofs.CommandLine.Lines
import RiskExchange.Proofs.Disk.Extensions
import RiskExchange.Proofs.Settings

/-! # Runs — a command line does what its command does

    A line asks for a command (`Asks`), the file of its settings is looked at,
    and only then is anything done. If the file gives settings or is not there,
    a conversion is carried out whose store and indent are each those of the
    line, else of the file, else of the defaults, and the run ends as the
    conversion does (`EndsAs`). If the file cannot be used, the run fails before
    it has touched the disk. One of the two is always so
    (`run_resolves_settings`). -/

namespace RiskExchange.CommandLine

open RiskExchange.Disk (Session)
open RiskExchange.Disk.Session
open RiskExchange.Settings (Holds givenStore givenIndent)

variable {words : List String} {i : Invocation} {d : Disk}

/-! ## The file of the settings -/

/-- What the file of the settings gives; nothing if it is not there. -/
inductive Gives (d : Disk) (path : String) :
    Option String → Option Nat → Prop where
  | absent (h : d.readText path = .error .notFound) : Gives d path none none
  | file {text : String} {table : Toml.Members}
      (h : d.readText path = .ok text) (htable : Toml.read? text = some table)
      (hholds : Holds table) :
      Gives d path (givenStore table) (givenIndent table)

/-- The file of the settings is there, and it cannot be read or holds no
    settings. -/
inductive Unusable (d : Disk) (path : String) : Prop where
  | unreadable {f : Disk.Failure} (h : d.readText path = .error f)
      (hf : f ≠ .notFound)
  | invalid {text : String} (h : d.readText path = .ok text)
      (hno : ∀ table, Toml.read? text = some table → ¬ Holds table)

theorem unusable_iff {path : String} :
    Unusable d path ↔ ¬ ∃ store indent, Gives d path store indent := by
  constructor
  · rintro h ⟨store, indent, hgives⟩
    cases hgives with
    | absent habsent =>
        cases h with
        | unreadable h hf =>
            exact hf (Except.error.inj (h.symm.trans habsent))
        | invalid h _ => exact nomatch h.symm.trans habsent
    | file hfile htable hholds =>
        cases h with
        | unreadable h _ => exact nomatch h.symm.trans hfile
        | invalid h hno =>
            obtain rfl := Except.ok.inj (h.symm.trans hfile)
            exact hno _ htable hholds
  · intro hnone
    cases hread : d.readText path with
    | error f =>
        refine .unreadable hread ?_
        rintro rfl
        exact hnone ⟨_, _, .absent hread⟩
    | ok text =>
        refine .invalid hread fun table htable hholds => ?_
        exact hnone ⟨_, _, .file hread htable hholds⟩

/-- What a file does not give is as in the defaults. -/
theorem Gives.loads {path : String} {store : Option String}
    {indent : Option Nat} (h : Gives d path store indent) :
    (Settings.loadOrDefault path).outcome d
      = .ok ⟨store.getD "sequence_data.json", indent.getD 2⟩ := by
  cases h with
  | absent h => exact Settings.loadOrDefault_of_notFound h
  | @file text table h htable hholds =>
      rw [(Settings.load_of_readText h).2]
      exact Settings.ofText_eq_ok_iff.mpr ⟨table, htable, hholds, rfl⟩

theorem Unusable.fails {path : String} (h : Unusable d path) :
    ∃ e, (Settings.loadOrDefault path).outcome d = .error e := by
  cases h with
  | unreadable h hf => exact ⟨_, Settings.loadOrDefault_of_unreadable h hf⟩
  | @invalid text h hno =>
      rw [(Settings.load_of_readText h).2]
      cases hs : Settings.ofText text with
      | error e => exact ⟨e, rfl⟩
      | ok s =>
          obtain ⟨table, htable, hholds, -⟩ := Settings.ofText_eq_ok_iff.mp hs
          exact absurd hholds (hno table htable)

/-! ## How a run ends -/

/-- The conversion that a line asks for: the store and the indent are each
    those of the line, else of the file, else of the defaults, and the output
    is beside the input unless the line names it. -/
def resolved (input : String) (output store fileStore : Option String)
    (indent fileIndent : Option Nat) : Conversion.Request where
  input := input
  output := output.getD (Disk.Path.withExtension input "xml")
  settings := {
    sequenceStore := (store.or fileStore).getD "sequence_data.json"
    indent := (indent.or fileIndent).getD 2 }

/-- The run ends as the conversion does, with the disk that it leaves, and says
    what it has produced. -/
structure EndsAs (r : Conversion.Request) (d : Disk) (result : Disk × Ending) :
    Prop where
  disk : result.1 = (Conversion.run r).after d
  success : ∀ s, (Conversion.run r).outcome d = .ok s →
    result.2.status = 0 ∧ result.2.failure = none ∧
      result.2.said = "Wrote " ++ r.output ++ "\n"
        ++ "  " ++ toString s.faultTrees ++ " fault trees, "
        ++ toString s.gates ++ " gates, "
        ++ toString s.basicEvents ++ " basic events, "
        ++ toString s.sequences ++ " sequences\n"
        ++ "  Sequence logic stored as '" ++ s.storeKey ++ "' in "
        ++ r.settings.sequenceStore ++ "\n"
  failure : ∀ e, (Conversion.run r).outcome d = .error e →
    result.2.status = 1 ∧ result.2.said = "" ∧
      result.2.failure = some (.ofConversion e)

/-- A run ends as its command does. -/
theorem run_of_ofWords (h : Demand.ofWords words = .run i) (d : Disk) :
    (run words d).1 = i.run.after d ∧
      (∀ said, i.run.outcome d = .ok said → (run words d).2.status = 0 ∧
        (run words d).2.said = said ∧ (run words d).2.failure = none) ∧
      (∀ f, i.run.outcome d = .error f → (run words d).2.status = 1 ∧
        (run words d).2.said = "" ∧ (run words d).2.failure = some f) := by
  rw [run, h]
  unfold outcome after
  dsimp only
  cases (i.run.run d).2.result with
  | ok said =>
      refine ⟨rfl, fun said' h => ?_, fun f h => nomatch h⟩
      cases h
      exact ⟨rfl, rfl, rfl⟩
  | error f =>
      refine ⟨rfl, fun said h => (nomatch h), fun f' h => ?_⟩
      cases h
      exact ⟨rfl, rfl, rfl⟩

/-- Where the settings are known, nothing but the command is carried out. -/
theorem Invocation.run_of_settings {s : Settings}
    (h : (Settings.loadOrDefault i.config).outcome d = .ok s) :
    i.run.outcome d = (i.command.run s).outcome d ∧
      i.run.after d = (i.command.run s).after d := by
  have hload : ((Settings.loadOrDefault i.config).mapError
      (Failure.ofSettings i.config)).outcome d = .ok s := by
    rw [outcome_mapError, h]
    rfl
  rw [Invocation.run, outcome_bind_of_ok hload, after_bind_of_ok hload,
    after_mapError, Settings.after_loadOrDefault]
  exact ⟨rfl, rfl⟩

/-- Without settings nothing is carried out. -/
theorem Invocation.run_of_error {e : Settings.LoadError}
    (h : (Settings.loadOrDefault i.config).outcome d = .error e) :
    i.run.outcome d = .error (.ofSettings i.config e) ∧
      i.run.after d = d := by
  have hload : ((Settings.loadOrDefault i.config).mapError
      (Failure.ofSettings i.config)).outcome d
        = .error (.ofSettings i.config e) := by
    rw [outcome_mapError, h]
    rfl
  rw [Invocation.run, outcome_bind_of_error hload, after_bind_of_error hload,
    after_mapError, Settings.after_loadOrDefault]
  exact ⟨rfl, rfl⟩

/-- The command of a conversion reports what has been produced. -/
theorem Command.run_convert {input : String} {output store : Option String}
    {indent : Option Nat} {s : Settings} {r : Conversion.Request}
    (hr : request input output store indent s = r) :
    ((Command.convert input output store indent).run s).after d
        = (Conversion.run r).after d ∧
      ((Command.convert input output store indent).run s).outcome d
        = match (Conversion.run r).outcome d with
          | .ok summary => .ok (report r summary)
          | .error e => .error (.ofConversion e) := by
  subst hr
  rw [Command.run, after_bind, outcome_bind, outcome_mapError, after_mapError]
  cases (Conversion.run (request input output store indent s)).outcome d with
  | ok summary => exact ⟨rfl, rfl⟩
  | error e => exact ⟨rfl, rfl⟩

/-- What a conversion reports, in full. -/
theorem report_eq (r : Conversion.Request) (s : Summary) : report r s
    = "Wrote " ++ r.output ++ "\n"
        ++ "  " ++ toString s.faultTrees ++ " fault trees, "
        ++ toString s.gates ++ " gates, "
        ++ toString s.basicEvents ++ " basic events, "
        ++ toString s.sequences ++ " sequences\n"
        ++ "  Sequence logic stored as '" ++ s.storeKey ++ "' in "
        ++ r.settings.sequenceStore ++ "\n" := by
  have hline : " sequences\n" = " sequences" ++ "\n" := by decide
  simp only [report, unlines, List.map_cons, List.map_nil, String.join,
    List.foldl_cons, List.foldl_nil, String.empty_append, hline,
    String.append_assoc]

/-- A line is accepted exactly if its words ask for something. One that asks for
    a conversion, with a file of settings that is absent or valid, ends as the
    conversion with the settings resolved. A line of any command whose file
    cannot be used ends with status 1; it says nothing and leaves the disk as it
    was. One of the two is always so. -/
theorem run_resolves_settings (words : List String) (i : Invocation) :
    (Demand.ofWords words = .run i ↔ Asks words i) ∧
    (Asks words i → ∀ d : Disk,
      (∀ input output store indent fileStore fileIndent,
        i.command = .convert input output store indent →
        Gives d i.config fileStore fileIndent →
          EndsAs (resolved input output store fileStore indent fileIndent) d
            (run words d) ∧
          Disk.Path.Extended "xml" input
            (resolved input none store fileStore indent fileIndent).output) ∧
      (Unusable d i.config → (run words d).1 = d ∧
        (run words d).2.status = 1 ∧ (run words d).2.said = "" ∧
        ∃ e, (run words d).2.failure = some (.ofSettings i.config e)) ∧
      (Unusable d i.config ↔
        ¬ ∃ store indent, Gives d i.config store indent)) := by
  refine ⟨ofWords_eq_run_iff, fun hasks d => ?_⟩
  obtain ⟨hdisk, hok, herror⟩ :=
    run_of_ofWords (ofWords_eq_run_iff.mpr hasks) d
  refine ⟨?converts, ?refused, unusable_iff⟩
  case converts =>
    intro input output store indent fileStore fileIndent hcommand hgives
    refine ⟨?_, Disk.Path.withExtension_extended input "xml"⟩
    obtain ⟨hout, hafter⟩ := Invocation.run_of_settings hgives.loads
    rw [hcommand] at hout hafter
    have hrequest : request input output store indent
        ⟨fileStore.getD "sequence_data.json", fileIndent.getD 2⟩
          = resolved input output store fileStore indent fileIndent := by
      cases store <;> cases indent <;> rfl
    obtain ⟨hconverted, hreported⟩ := Command.run_convert (d := d) hrequest
    constructor
    · rw [hdisk, hafter, hconverted]
    · intro s hs
      rw [hs] at hreported
      obtain ⟨hstatus, hsaid, hfailure⟩ := hok _ (hout.trans hreported)
      exact ⟨hstatus, hfailure, hsaid.trans (report_eq _ s)⟩
    · intro e he
      rw [he] at hreported
      exact herror _ (hout.trans hreported)
  case refused =>
    intro hunusable
    obtain ⟨e, he⟩ := hunusable.fails
    obtain ⟨hout, hafter⟩ := Invocation.run_of_error he
    obtain ⟨hstatus, hsaid, hfailure⟩ := herror _ hout
    exact ⟨hdisk.trans hafter, hstatus, hsaid, e, hfailure⟩

/-- A disk with a solver file and a file of settings, and one in the usual place
    that is none. -/
def twoConfigs : Disk where
  entries := [
    (["in.json"], .file ("[[[[\"T\",1],1],[[5,0,\"pump\",\"0.5\"]],"
      ++ "[[[1],[[2,\"and\",[],[5]]]]],[[1]],[[7,[65541]]]]]").toUTF8),
    (["c.toml"], .file (Settings.render ⟨"t.json", 4⟩).toUTF8),
    (["pramef.toml"], .file "no settings".toUTF8)]
  here := []

/-- A line with a store of its own. -/
def storeLine : List String :=
  ["-c", "c.toml", "convert", "in.json", "--store=s.json"]

/-- A line with an output and an indent of its own. -/
def outputLine : List String :=
  ["convert", "-vo=out", "in.json", "--indent", "8", "-cc.toml"]

/-- What a line does not give is the file's, and the output is where it is by
    default. The other file stops even a command that has no use for
    settings. -/
theorem run_resolves_settings_twoConfigs :
    EndsAs ⟨"in.json", "in.xml", ⟨"s.json", 4⟩⟩ twoConfigs
      (run storeLine twoConfigs) ∧
    (run storeLine twoConfigs).2.status = 0 ∧
    (run storeLine twoConfigs).2.said = "Wrote in.xml\n"
      ++ "  1 fault trees, 1 gates, 1 basic events, 1 sequences\n"
      ++ "  Sequence logic stored as 'T-1' in s.json\n" ∧
    EndsAs ⟨"in.json", "out", ⟨"t.json", 8⟩⟩ twoConfigs
      (run outputLine twoConfigs) ∧
    (run ["encode", "7"] twoConfigs).1 = twoConfigs ∧
    (run ["encode", "7"] twoConfigs).2.status = 1 := by
  have hgives : Gives twoConfigs "c.toml" (some "t.json") (some 4) := by
    refine .file (by decide +kernel) (Settings.read?_render ⟨"t.json", 4⟩)
      ⟨rfl, ?_, ?_, by decide +kernel⟩
    · exact fun v h => ⟨"t.json", (Option.some.inj h).symm⟩
    · exact fun v h => ⟨4, (Option.some.inj h).symm⟩
  have hunusable : Unusable twoConfigs "pramef.toml" := by
    have hnone : (Toml.read? "no settings").isNone = true := by
      decide +kernel
    have hread : twoConfigs.readText "pramef.toml" = .ok "no settings" := by
      decide +kernel
    refine .invalid hread fun table htable => ?_
    rw [htable] at hnone
    exact nomatch hnone
  have hsuccess : (Conversion.run
      ⟨"in.json", "in.xml", ⟨"s.json", 4⟩⟩).outcome twoConfigs
        = .ok ⟨1, 1, 1, 1, "T-1"⟩ := by decide +kernel
  obtain ⟨hstore, hstoreEnds⟩ := run_resolves_settings storeLine
    ⟨0, "c.toml", .convert "in.json" none (some "s.json") none⟩
  obtain ⟨houtput, houtputEnds⟩ := run_resolves_settings outputLine
    ⟨1, "c.toml", .convert "in.json" (some "out") none (some 8)⟩
  obtain ⟨hencode, hencodeEnds⟩ := run_resolves_settings ["encode", "7"]
    ⟨0, "pramef.toml", .encode [7]⟩
  obtain ⟨hends, -⟩ := (hstoreEnds (hstore.mp (by decide +kernel)) twoConfigs).1
    _ _ _ _ _ _ rfl hgives
  obtain ⟨hends', -⟩ :=
    (houtputEnds (houtput.mp (by decide +kernel)) twoConfigs).1
      _ _ _ _ _ _ rfl hgives
  obtain ⟨-, hrefused, -⟩ :=
    hencodeEnds (hencode.mp (by decide +kernel)) twoConfigs
  obtain ⟨hstatus, -, hsaid⟩ := hends.success _ hsuccess
  obtain ⟨hdisk, hfailed, -, -⟩ := hrefused hunusable
  exact ⟨hends, hstatus, hsaid.trans (by decide +kernel), hends', hdisk,
    hfailed⟩

end RiskExchange.CommandLine
