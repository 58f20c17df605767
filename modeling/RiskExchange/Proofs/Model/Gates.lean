import RiskExchange.Proofs.Model.Acceptance

/-! # Gates — what a fault tree is built of, and what stops it

    A gate is built if its kind can be read, and has the kind and the inputs of
    its record (`Gate.build_eq_ok_iff`). The first gate of a tree is the top
    gate whatever its id is; the others are named by their ids, which must be
    written differently. So a fault tree is built if and only if the ids behind
    the first are different and all kinds can be read, and otherwise the error
    is that of the first gate with either fault (`builds_iff_kinds_and_ids`). -/

namespace RiskExchange.Model

open RiskExchange.Journal.Noted (result_bind)
open RiskExchange.Solver

/-! ## One gate -/

/-- The text is a gate kind. -/
def GateKind.Reads (s : String) : Prop := ∃ kind, parse s = .ok kind

/-- A text that is no gate kind is reported as it is. -/
theorem GateKind.eq_of_parse_eq_error {s : String} {e : BuildError}
    (h : parse s = .error e) : e = .malformedGateKind s := by
  unfold parse at h
  split_ifs at h
  split at h
  · exact nomatch h
  · exact (Except.error.inj h).symm

theorem GateKind.parse_eq_error_iff {s : String} {e : BuildError} :
    parse s = .error e ↔ ¬ Reads s ∧ e = .malformedGateKind s := by
  constructor
  · intro h
    refine ⟨?_, eq_of_parse_eq_error h⟩
    rintro ⟨kind, hkind⟩
    exact nomatch h.symm.trans hkind
  · rintro ⟨hnot, rfl⟩
    cases h : parse s with
    | ok kind => exact absurd ⟨kind, h⟩ hnot
    | error e => rw [eq_of_parse_eq_error h]

namespace Gate

/-- The gate has the given name, the kind that its record spells, and the
    inputs that the record lists, named by kind. -/
structure Follows (name : Identifier) (r : GateRecord) (g : Gate) : Prop where
  name : g.name = name
  kind : GateKind.parse r.kind = .ok g.kind
  gates : g.gates = r.gates.map fun id => .tagged .gate id.written
  events : g.events = r.events.map fun id => .tagged .basicEvent id.written
  complements :
    g.complements = r.complements.map fun id => .tagged .basicEvent id.written

variable {name : Identifier} {r : GateRecord} {g : Gate} {e : BuildError}

/-- The notice about the number of inputs makes no difference to the gate. -/
theorem result_build (name : Identifier) (r : GateRecord) :
    (build name r).result
      = GateKind.parse r.kind >>= fun kind => .ok (ofRecord name kind r) := by
  rw [build, result_bind]
  show (GateKind.parse r.kind >>= _) = _
  congr 1
  funext kind
  dsimp only
  cases (ofRecord name kind r).arityNotice? r.kind with
  | none => rfl
  | some n => rfl

theorem build_eq_ok_iff : (build name r).result = .ok g ↔ Follows name r g := by
  rw [result_build]
  constructor
  · intro h
    obtain ⟨kind, hkind, h⟩ := bind_eq_ok h
    obtain rfl := Except.ok.inj h
    exact ⟨rfl, hkind, rfl, rfl, rfl⟩
  · rintro ⟨hname, hkind, hgates, hevents, hcomplements⟩
    rw [hkind, ok_bind]
    obtain ⟨_, kind, _, _, _⟩ := g
    simp only at hname hgates hevents hcomplements
    rw [hname, hgates, hevents, hcomplements]
    rfl

theorem build_eq_error_iff : (build name r).result = .error e ↔
    ¬ GateKind.Reads r.kind ∧ e = .malformedGateKind r.kind := by
  rw [result_build, bind_ok_eq_error_iff, GateKind.parse_eq_error_iff]

theorem exists_build_iff (name : Identifier) :
    (∃ g, (build name r).result = .ok g) ↔ GateKind.Reads r.kind := by
  rw [result_build, exists_bind_ok_iff, GateKind.Reads]

end Gate

/-! ## The gates of a tree -/

/-- The name that the id of a gate gives. -/
def gateName (r : GateRecord) : Identifier := .tagged .gate r.id.written

/-- The gates follow their records, in order: the first as the top gate, the
    others under the names that their ids give. -/
inductive GatesFollow : List GateRecord → List Gate → Prop where
  | nothing : GatesFollow [] []
  | gates {top : GateRecord} {rest : List GateRecord} {g : Gate}
      {gs : List Gate} (htop : Gate.Follows .top top g)
      (hrest : List.Forall₂ (fun r g => Gate.Follows (gateName r) r g) rest gs) :
      GatesFollow (top :: rest) (g :: gs)

section Later

variable {tree : Identifier} {rs : List GateRecord} {gs : List Gate}
  {e : BuildError}

/-- The gates behind the first, whose name is taken. -/
def buildLater (tree : Identifier) (rs : List GateRecord) :
    Except BuildError (List Gate) :=
  enrol gateName
    (fun taken r => if taken then .error (.duplicateGate tree (gateName r))
      else (Gate.build (gateName r) r).result) [.top] rs

theorem enrol_map {ε α β γ : Type} (name : α → Identifier)
    (enter : Bool → α → Except ε β) (f : γ → α) (taken : List Identifier)
    (cs : List γ) :
    enrol name enter taken (cs.map f)
      = enrol (fun c => name (f c)) (fun b c => enter b (f c)) taken cs := by
  induction cs generalizing taken with
  | nil => rfl
  | cons c rest ih => rw [List.map_cons, enrol, enrol, ih]

/-- The top gate is built first, and nothing can be in its way. -/
theorem result_buildGates_cons (tree : Identifier) (top : GateRecord)
    (rest : List GateRecord) :
    (FaultTree.buildGates tree []
        ((FaultTree.gateNames (top :: rest)).zip (top :: rest))).result
      = (Gate.build .top top).result >>= fun g =>
        buildLater tree rest >>= fun gs => .ok (g :: gs) := by
  have hzip : (FaultTree.gateNames (top :: rest)).zip (top :: rest)
      = (.top, top) :: rest.map fun r => (gateName r, r) := by
    rw [FaultTree.gateNames, nameAll, List.map_map, List.zip_cons_cons,
      ← List.map_prod_right_eq_zip]
    rfl
  rw [hzip, FaultTree.result_buildGates, enrol, enrol_map]
  rfl

theorem fresh_top_iff :
    Fresh gateName [.top] rs ↔ Distinct (·.id) rs := by
  have hkeys : Fresh gateName [] rs ↔ Distinct (·.id) rs := fresh_tagged_iff
  rw [← hkeys]
  refine ⟨fun h => fresh_nil_iff.mpr h.nodup, fun h => ⟨h.nodup, ?_⟩⟩
  intro r _
  simp [gateName]

theorem contains_top_iff {r : GateRecord} :
    (rs.map gateName ++ [Identifier.top]).contains (gateName r) = true ↔
      ∃ q ∈ rs, q.id.written = r.id.written := by
  simp [gateName]

theorem buildLater_eq_ok_iff : buildLater tree rs = .ok gs ↔
    List.Forall₂ (fun r g => Gate.Follows (gateName r) r g) rs gs ∧
      Distinct (·.id) rs := by
  rw [buildLater, enrol_eq_ok_iff (by simp), fresh_top_iff]
  simp only [Bool.false_eq_true, if_false, Gate.build_eq_ok_iff]

theorem exists_buildLater_iff (tree : Identifier) :
    (∃ gs, buildLater tree rs = .ok gs) ↔
      (∀ r ∈ rs, GateKind.Reads r.kind) ∧ Distinct (·.id) rs := by
  simp only [buildLater_eq_ok_iff, exists_and_right, exists_forall₂_iff,
    ← Gate.build_eq_ok_iff, Gate.exists_build_iff]

/-- The gates behind the first are stopped by the first of them that repeats a
    name or has no kind, and the name is looked at before the kind. -/
theorem buildLater_eq_error_iff : buildLater tree rs = .error e ↔
    ∃ before r after, rs = before ++ r :: after ∧
      (∀ q ∈ before, GateKind.Reads q.kind) ∧
      (Repeats (·.id) before r ∧ e = .duplicateGate tree (gateName r) ∨
        Distinct (·.id) (before ++ [r]) ∧ ¬ GateKind.Reads r.kind ∧
          e = .malformedGateKind r.kind) := by
  rw [buildLater, enrol_eq_error_iff]
  refine exists_congr fun before => exists_congr fun r => exists_congr
    fun after => and_congr_right fun _ => ?_
  rw [← buildLater, exists_buildLater_iff]
  constructor
  · rintro ⟨⟨hkinds, hbefore⟩, he⟩
    refine ⟨hkinds, ?_⟩
    split_ifs at he with hmem
    · exact .inl ⟨⟨hbefore, contains_top_iff.mp hmem⟩,
        (Except.error.inj he).symm⟩
    · exact .inr ⟨distinct_concat_iff.mpr ⟨hbefore, mt contains_top_iff.mpr hmem⟩,
        Gate.build_eq_error_iff.mp he⟩
  · rintro ⟨hkinds, ⟨⟨hbefore, hmem⟩, rfl⟩ | ⟨hnew, he⟩⟩
    · refine ⟨⟨hkinds, hbefore⟩, ?_⟩
      rw [if_pos (contains_top_iff.mpr hmem)]
    · obtain ⟨hbefore, hmem⟩ := distinct_concat_iff.mp hnew
      refine ⟨⟨hkinds, hbefore⟩, ?_⟩
      rw [if_neg (mt contains_top_iff.mp hmem)]
      exact Gate.build_eq_error_iff.mpr he

end Later

/-! ## The whole tree -/

namespace FaultTree

/-- The tree has the name that its record gives, and one gate for each record
    of a gate. No two of its gates have names that are written alike. -/
structure Describes (r : FaultTreeRecord) (t : FaultTree) : Prop where
  name : t.name = .tagged .faultTree r.id.written
  gates : GatesFollow r.gates t.gates
  distinct : (t.gates.map (·.name.text)).Nodup

/-- The first gate of a record with a fault: its id is written like that of a
    gate before it, the first apart, or else its kind cannot be read. -/
inductive Refused (r : FaultTreeRecord) : BuildError → Prop where
  | name {before g after} (hs : r.gates = before ++ g :: after)
      (hbefore : ∀ q ∈ before, GateKind.Reads q.kind)
      (hr : Repeats (·.id) before.tail g) :
      Refused r (.duplicateGate (.tagged .faultTree r.id.written)
        (.tagged .gate g.id.written))
  | kind {before g after} (hs : r.gates = before ++ g :: after)
      (hbefore : ∀ q ∈ before, GateKind.Reads q.kind)
      (hdistinct : Distinct (·.id) (before ++ [g]).tail)
      (hkind : ¬ GateKind.Reads g.kind) :
      Refused r (.malformedGateKind g.kind)

variable {r : FaultTreeRecord} {t : FaultTree} {gates : List Gate}
  {e : BuildError}

/-- The gates of a record, or the error that stops them. -/
def gatesOf (r : FaultTreeRecord) : Except BuildError (List Gate) :=
  (buildGates (.tagged .faultTree r.id.written) []
    ((gateNames r.gates).zip r.gates)).result

theorem result_build (r : FaultTreeRecord) : (build r).result =
    gatesOf r >>= fun gates => .ok ⟨.tagged .faultTree r.id.written, gates⟩ := by
  rw [build, gatesOf]
  simp only [result_bind]
  rfl

theorem gatesOf_nil (h : r.gates = []) : gatesOf r = .ok [] := by
  rw [gatesOf, h]
  rfl

theorem gatesOf_cons {top : GateRecord} {rest : List GateRecord}
    (h : r.gates = top :: rest) :
    gatesOf r = (Gate.build .top top).result >>= fun g =>
      buildLater (.tagged .faultTree r.id.written) rest >>= fun gs =>
        .ok (g :: gs) := by
  rw [gatesOf, h, result_buildGates_cons]

theorem gatesOf_eq_ok_iff : gatesOf r = .ok gates ↔
    GatesFollow r.gates gates ∧ Distinct (·.id) r.gates.tail := by
  cases hr : r.gates with
  | nil =>
      rw [gatesOf_nil hr]
      constructor
      · rintro ⟨⟩
        exact ⟨.nothing, List.nodup_nil⟩
      · rintro ⟨⟨⟩, -⟩
        rfl
  | cons top rest =>
      rw [gatesOf_cons hr]
      constructor
      · intro h
        obtain ⟨g, hg, h⟩ := bind_eq_ok h
        obtain ⟨gs, hgs, h⟩ := bind_eq_ok h
        obtain rfl := Except.ok.inj h
        obtain ⟨hrest, hdistinct⟩ := buildLater_eq_ok_iff.mp hgs
        exact ⟨.gates (Gate.build_eq_ok_iff.mp hg) hrest, hdistinct⟩
      · rintro ⟨_ | ⟨htop, hrest⟩, hdistinct⟩
        rw [Gate.build_eq_ok_iff.mpr htop, ok_bind,
          buildLater_eq_ok_iff.mpr ⟨hrest, hdistinct⟩, ok_bind]

theorem exists_gatesOf_iff : (∃ gates, gatesOf r = .ok gates) ↔
    (∀ g ∈ r.gates, GateKind.Reads g.kind) ∧
      Distinct (·.id) r.gates.tail := by
  cases hr : r.gates with
  | nil =>
      rw [gatesOf_nil hr]
      exact ⟨fun _ => ⟨fun _ hg => (nomatch hg), List.nodup_nil⟩,
        fun _ => ⟨[], rfl⟩⟩
  | cons top rest =>
      rw [gatesOf_cons hr, List.forall_mem_cons, List.tail_cons, and_assoc,
        ← Gate.exists_build_iff .top,
        ← exists_buildLater_iff (.tagged .faultTree r.id.written)]
      constructor
      · rintro ⟨gates, h⟩
        obtain ⟨g, hg, h⟩ := bind_eq_ok h
        obtain ⟨gs, hgs, -⟩ := bind_eq_ok h
        exact ⟨⟨g, hg⟩, ⟨gs, hgs⟩⟩
      · rintro ⟨⟨g, hg⟩, ⟨gs, hgs⟩⟩
        rw [hg, ok_bind, hgs]
        exact ⟨_, rfl⟩

theorem gatesOf_cons_eq_error_iff {top : GateRecord} {rest : List GateRecord}
    (h : r.gates = top :: rest) : gatesOf r = .error e ↔
      (¬ GateKind.Reads top.kind ∧ e = .malformedGateKind top.kind) ∨
        GateKind.Reads top.kind ∧
          buildLater (.tagged .faultTree r.id.written) rest = .error e := by
  rw [gatesOf_cons h, bind_eq_error_iff, Gate.build_eq_error_iff]
  simp only [bind_ok_eq_error_iff]
  rw [exists_and_right, Gate.exists_build_iff]

theorem refused_of_gatesOf (h : gatesOf r = .error e) : Refused r e := by
  cases hr : r.gates with
  | nil => exact nomatch (gatesOf_nil hr).symm.trans h
  | cons top rest =>
      rcases (gatesOf_cons_eq_error_iff hr).mp h with
        ⟨hkind, rfl⟩ | ⟨htop, hlater⟩
      · have hs : r.gates = [] ++ top :: rest := hr
        exact .kind hs (fun _ hq => nomatch hq) List.nodup_nil hkind
      · obtain ⟨before, q, after, rfl, hbefore, hq⟩ :=
          buildLater_eq_error_iff.mp hlater
        have hs : r.gates = (top :: before) ++ q :: after := hr
        have hkinds : ∀ p ∈ top :: before, GateKind.Reads p.kind :=
          List.forall_mem_cons.mpr ⟨htop, hbefore⟩
        rcases hq with ⟨hrepeats, rfl⟩ | ⟨hdistinct, hkind, rfl⟩
        · exact .name hs hkinds hrepeats
        · exact .kind hs hkinds hdistinct hkind

/-- The gate with the fault is the first, or the first is among those before
    it. -/
theorem Refused.gatesOf (h : Refused r e) : gatesOf r = .error e := by
  cases h with
  | @name before g after hs hbefore hr =>
      cases before with
      | nil =>
          obtain ⟨p, hp, -⟩ := hr.repeated
          exact nomatch hp
      | cons top before =>
          obtain ⟨htop, hbefore⟩ := List.forall_mem_cons.mp hbefore
          exact (gatesOf_cons_eq_error_iff hs).mpr (.inr ⟨htop,
            buildLater_eq_error_iff.mpr
              ⟨before, g, after, rfl, hbefore, .inl ⟨hr, rfl⟩⟩⟩)
  | @kind before g after hs hbefore hdistinct hkind =>
      cases before with
      | nil => exact (gatesOf_cons_eq_error_iff hs).mpr (.inl ⟨hkind, rfl⟩)
      | cons top before =>
          obtain ⟨htop, hbefore⟩ := List.forall_mem_cons.mp hbefore
          exact (gatesOf_cons_eq_error_iff hs).mpr (.inr ⟨htop,
            buildLater_eq_error_iff.mpr ⟨before, g, after, rfl, hbefore,
              .inr ⟨hdistinct, hkind, rfl⟩⟩⟩)

theorem name_gates (h : GatesFollow r.gates gates) :
    gates.map (·.name) = gateNames r.gates := by
  generalize r.gates = rs at h
  cases h with
  | nothing => rfl
  | @gates top rest g gs htop hrest =>
      rw [gateNames, List.map_cons, htop.name, nameAll, List.map_map]
      exact congrArg _ (map_eq_map_of_forall₂ (hrest.imp fun _ _ h => h.name))

theorem nodup_gateNames_iff {rs : List GateRecord} :
    (gateNames rs).Nodup ↔ Distinct (·.id) rs.tail := by
  cases rs with
  | nil => simp [gateNames, Distinct]
  | cons top rest =>
      rw [gateNames, List.nodup_cons, List.tail_cons, ← fresh_tagged_iff,
        fresh_nil_iff, nameAll, List.map_map]
      refine and_iff_right ?_
      simp

/-- What is built describes the record, and is what describes it. -/
theorem build_eq_ok_iff : (build r).result = .ok t ↔ Describes r t := by
  have htexts (hgates : GatesFollow r.gates t.gates) :
      (t.gates.map (·.name.text)).Nodup ↔ Distinct (·.id) r.gates.tail := by
    rw [← nodup_gateNames_iff, ← name_gates hgates,
      ← List.nodup_map_iff Identifier.text_injective, List.map_map]
    rfl
  rw [result_build]
  constructor
  · intro h
    obtain ⟨gates, hgates, h⟩ := bind_eq_ok h
    obtain rfl := Except.ok.inj h
    obtain ⟨hfollow, hdistinct⟩ := gatesOf_eq_ok_iff.mp hgates
    exact ⟨rfl, hfollow, (htexts hfollow).mpr hdistinct⟩
  · rintro ⟨hname, hfollow, hdistinct⟩
    rw [gatesOf_eq_ok_iff.mpr ⟨hfollow, (htexts hfollow).mp hdistinct⟩,
      ok_bind, ← hname]

/-- A fault tree is built if and only if each of its gates has a kind and the
    ids of the gates behind the first are written differently. What is built is
    what describes the record, and otherwise the error is that of the first gate
    with a fault. -/
theorem builds_iff_kinds_and_ids (r : FaultTreeRecord) :
    ((∃ t, (build r).result = .ok t) ↔
      (∀ g ∈ r.gates, GateKind.Reads g.kind) ∧
        Distinct (·.id) r.gates.tail) ∧
    (∀ t, (build r).result = .ok t ↔ Describes r t) ∧
    ∀ e, (build r).result = .error e ↔ Refused r e := by
  refine ⟨?_, fun t => build_eq_ok_iff, fun e => ?_⟩
  · rw [result_build, exists_bind_ok_iff, exists_gatesOf_iff]
  · rw [result_build, bind_ok_eq_error_iff]
    exact ⟨refused_of_gatesOf, Refused.gatesOf⟩

/-- A record whose second gate has the id of the first. -/
def reusedId (more : List GateRecord) : FaultTreeRecord where
  id := .number (.natural 1)
  gates :=
    ⟨.number (.natural 5), "or", [.text "5"], [.text "7", .text "7"], []⟩ ::
    ⟨.text "5", " 2/3", [.text "9"], [.text "7"], [.text "8"]⟩ :: more

/-- The tree of that record. -/
def reusedIdTree : FaultTree where
  name := .tagged .faultTree "1"
  gates := [
    ⟨.top, .or, [.tagged .gate "5"],
      [.tagged .basicEvent "7", .tagged .basicEvent "7"], []⟩,
    ⟨.tagged .gate "5", .atLeast 2, [.tagged .gate "9"],
      [.tagged .basicEvent "7"], [.tagged .basicEvent "8"]⟩]

/-- The id of the first gate may be used again, but only once; a third gate
    with it is refused for that and not for its kind. -/
theorem builds_iff_kinds_and_ids_reusedId :
    Describes (reusedId []) reusedIdTree ∧
    (build (reusedId [⟨.number (.natural 5), "xor", [], [], []⟩])).result
      = .error (.duplicateGate (.tagged .faultTree "1")
        (.tagged .gate "5")) := by
  have hok : (build (reusedId [])).result = .ok reusedIdTree := by
    decide +kernel
  have hkinds : ∀ q ∈ (reusedId []).gates, GateKind.Reads q.kind :=
    ((builds_iff_kinds_and_ids _).1.mp ⟨_, hok⟩).1
  have hrepeats : Repeats GateRecord.id (reusedId []).gates.tail
      ⟨.number (.natural 5), "xor", [], [], []⟩ :=
    ⟨List.nodup_singleton _, _, List.mem_singleton_self _, rfl⟩
  exact ⟨((builds_iff_kinds_and_ids _).2.1 _).mp hok,
    ((builds_iff_kinds_and_ids _).2.2 _).mpr (.name rfl hkinds hrepeats)⟩

end FaultTree
end RiskExchange.Model
