import RiskExchange.Proofs.Model.Gates
import RiskExchange.Proofs.Solver.GateInputs
import RiskExchange.Proofs.Text.Unsigned

/-! # Arity warnings — thresholds that declare another number of inputs

    A threshold is written `k/n`, and `n` repeats the number of inputs of its
    gate (`GateKind.Declares`). The kind of a gate and the number that it
    declares are read off the same text independently of each other, and agree
    on where it is divided (`GateKind.declares_iff`). A gate that is built and
    has another number of inputs is warned of. So the warnings about a tree are
    those about the gates before the first that cannot be built
    (`warns_of_mismatches`), and nothing else comes of a wrong number. -/

namespace RiskExchange.Model

open RiskExchange.Journal (Notice)
open RiskExchange.Journal.Noted (result_bind notices_bind)
open RiskExchange.Solver
open RiskExchange.Text

/-! ## Thresholds as they are written -/

/-- A text is divided at its first slash. -/
theorem splitSlash?_eq_some_iff {s before after : List Char} :
    splitSlash? s = some (before, after) ↔
      s = before ++ '/' :: after ∧ '/' ∉ before := by
  induction s generalizing before with
  | nil => simp [splitSlash?]
  | cons c rest ih =>
      rw [splitSlash?]
      by_cases hc : c = '/'
      · subst hc
        rw [if_pos rfl]
        constructor
        · rintro ⟨⟩
          exact ⟨rfl, List.not_mem_nil⟩
        · rintro ⟨heq, hbefore⟩
          cases before with
          | nil =>
              obtain ⟨-, rfl⟩ := List.cons.inj heq
              rfl
          | cons b before =>
              obtain ⟨rfl, -⟩ := List.cons.inj heq
              exact absurd (List.mem_cons_self ..) hbefore
      · rw [if_neg hc]
        constructor
        · intro h
          obtain ⟨⟨front, back⟩, hrest, heq⟩ := Option.map_eq_some_iff.mp h
          cases heq
          obtain ⟨rfl, hfront⟩ := ih.mp hrest
          exact ⟨rfl, List.not_mem_cons_of_ne_of_not_mem (Ne.symm hc) hfront⟩
        · rintro ⟨heq, hbefore⟩
          cases before with
          | nil => exact absurd (List.cons.inj heq).1 hc
          | cons b before =>
              obtain ⟨rfl, rfl⟩ := List.cons.inj heq
              rw [ih.mpr ⟨rfl, List.not_mem_of_not_mem_cons hbefore⟩]
              rfl

theorem paddedNumber?_eq_some_iff {bound n : Nat} {s : List Char} :
    paddedNumber? bound s = some n ↔ IsUnsigned n (trim s) ∧ n ≤ bound := by
  rw [paddedNumber?, toOption_eq_some_iff, readUnsigned_eq_ok_iff]

namespace GateKind

variable {s : String} {kind : GateKind} {k n : Nat} {before after : List Char}

/-- The text is a threshold `k/n`: before its first slash it is a positive
    number of 32 bits, and behind it a number of 64 bits, either between
    blanks. -/
def Declares (s : String) (k n : Nat) : Prop :=
  ∃ before after, s.toList = before ++ '/' :: after ∧ '/' ∉ before ∧
    (IsUnsigned k (trim before) ∧ 0 < k ∧ k ≤ maxWord32) ∧
    IsUnsigned n (trim after) ∧ n ≤ maxWord64

/-- The kind of a text with a slash depends on what is before the first. -/
theorem parse_of_slash (hs : s.toList = before ++ '/' :: after)
    (hbefore : '/' ∉ before) : parse s = .ok kind ↔
      ∃ k, paddedNumber? maxWord32 before = some k ∧ 0 < k ∧
        kind = .atLeast k := by
  -- the kinds that are words have no slash, so a text with one is neither
  have hword {w : String} (hw : '/' ∉ w.toList) : s ≠ w := by
    rintro rfl
    exact hw (hs ▸ List.mem_append_right _ (List.mem_cons_self ..))
  have hthreshold : threshold? s
      = (paddedNumber? maxWord32 before).bind fun k =>
          if 0 < k then some k else none := by
    rw [threshold?, splitSlash?_eq_some_iff.mpr ⟨hs, hbefore⟩]
    rfl
  rw [parse, if_neg (hword (by decide)), if_neg (hword (by decide)), hthreshold]
  cases paddedNumber? maxWord32 before with
  | none => simp
  | some k =>
      by_cases hk : 0 < k
      · simp [hk, eq_comm]
      · simp [hk]

/-- The number that a text declares depends on what is behind its first
    slash. -/
theorem declaredInputs?_of_slash (hs : s.toList = before ++ '/' :: after)
    (hbefore : '/' ∉ before) :
    declaredInputs? s = paddedNumber? maxWord64 after := by
  rw [declaredInputs?, splitSlash?_eq_some_iff.mpr ⟨hs, hbefore⟩]
  rfl

theorem exists_slash (hn : declaredInputs? s = some n) :
    ∃ before after, s.toList = before ++ '/' :: after ∧ '/' ∉ before := by
  obtain ⟨⟨before, after⟩, hsplit, -⟩ := Option.bind_eq_some_iff.mp hn
  exact ⟨before, after, splitSlash?_eq_some_iff.mp hsplit⟩

/-- Where a text declares a number, its kind is read as a threshold, and both
    numbers are read off it. -/
theorem declares_iff : Declares s k n ↔
    parse s = .ok (.atLeast k) ∧ declaredInputs? s = some n := by
  constructor
  · rintro ⟨before, after, hs, hbefore, ⟨hk, hpos, hword⟩, hn⟩
    rw [parse_of_slash hs hbefore, declaredInputs?_of_slash hs hbefore]
    exact ⟨⟨k, paddedNumber?_eq_some_iff.mpr ⟨hk, hword⟩, hpos, rfl⟩,
      paddedNumber?_eq_some_iff.mpr hn⟩
  · rintro ⟨hkind, hn⟩
    obtain ⟨before, after, hs, hbefore⟩ := exists_slash hn
    obtain ⟨k, hk, hpos, heq⟩ := (parse_of_slash hs hbefore).mp hkind
    cases heq
    rw [declaredInputs?_of_slash hs hbefore] at hn
    obtain ⟨hspelled, hword⟩ := paddedNumber?_eq_some_iff.mp hk
    exact ⟨before, after, hs, hbefore, ⟨hspelled, hpos, hword⟩,
      paddedNumber?_eq_some_iff.mp hn⟩

/-- A text that declares a number is a threshold if it is a kind at all: the
    other kinds have no slash. -/
theorem exists_declares (hkind : parse s = .ok kind)
    (hn : declaredInputs? s = some n) : ∃ k, Declares s k n := by
  obtain ⟨before, after, hs, hbefore⟩ := exists_slash hn
  obtain ⟨k, -, -, rfl⟩ := (parse_of_slash hs hbefore).mp hkind
  exact ⟨k, declares_iff.mpr ⟨hkind, hn⟩⟩

end GateKind

/-! ## The warning about one gate -/

section Gate

variable {name : Identifier} {g : GateRecord} {kind : GateKind}

/-- The number of inputs of all three kinds that a record has. -/
def recordedInputs (g : GateRecord) : Nat :=
  g.gates.length + g.events.length + g.complements.length

/-- The record declares a number of inputs and has another. -/
def Mismatch (g : GateRecord) : Prop :=
  ∃ k n, GateKind.Declares g.kind k n ∧ n ≠ recordedInputs g

theorem inputCount_ofRecord (name : Identifier) (kind : GateKind)
    (g : GateRecord) :
    (Gate.ofRecord name kind g).inputCount = recordedInputs g := by
  simp [Gate.inputCount, Gate.ofRecord, nameAll, recordedInputs]

namespace Gate

/-- What is reported of a gate that is built. -/
theorem notices_build (hkind : GateKind.parse g.kind = .ok kind) :
    (build name g).notices
      = ((ofRecord name kind g).arityNotice? g.kind).toList := by
  rw [build, hkind, notices_bind (a := kind) rfl]
  dsimp only
  cases (ofRecord name kind g).arityNotice? g.kind with
  | none => rfl
  | some n => rfl

theorem arityNotice?_of_mismatch (h : Mismatch g)
    (name : Identifier) (kind : GateKind) :
    (ofRecord name kind g).arityNotice? g.kind
      = some (.arityMismatch name g.kind (recordedInputs g)) := by
  obtain ⟨k, n, hdeclares, hne⟩ := h
  rw [arityNotice?, (GateKind.declares_iff.mp hdeclares).2,
    inputCount_ofRecord]
  exact if_neg hne

theorem arityNotice?_of_not_mismatch (h : ¬ Mismatch g) (name : Identifier)
    (hkind : GateKind.parse g.kind = .ok kind) :
    (ofRecord name kind g).arityNotice? g.kind = none := by
  rw [arityNotice?]
  cases hn : GateKind.declaredInputs? g.kind with
  | none => rfl
  | some n =>
      obtain ⟨k, hdeclares⟩ := GateKind.exists_declares hkind hn
      have heq : n = recordedInputs g := by
        by_contra hne
        exact h ⟨k, n, hdeclares, hne⟩
      rw [inputCount_ofRecord]
      exact if_pos heq

end Gate
end Gate

/-! ## The warnings about a list of gates -/

/-- One notice for each gate that declares another number of inputs than it
    has, in order. -/
inductive Warned : List (Identifier × GateRecord) → List Notice → Prop where
  | nothing : Warned [] []
  | mismatch {name g rest notices} (h : Mismatch g)
      (hrest : Warned rest notices) :
      Warned ((name, g) :: rest)
        (.arityMismatch name g.kind (recordedInputs g) :: notices)
  | silent {name g rest notices} (h : ¬ Mismatch g)
      (hrest : Warned rest notices) : Warned ((name, g) :: rest) notices

theorem Warned.level_eq {rs : List (Identifier × GateRecord)}
    {notices : List Notice} (h : Warned rs notices) :
    ∀ n ∈ notices, n.level = .warn := by
  induction h with
  | nothing => exact fun _ hn => nomatch hn
  | mismatch _ _ ih => exact List.forall_mem_cons.mpr ⟨rfl, ih⟩
  | silent _ _ ih => exact ih

namespace FaultTree

variable {tree : Identifier} {taken : List Identifier} {name : Identifier}
  {g : GateRecord} {rest : List (Identifier × GateRecord)} {gate : Gate}

/-- A gate whose name is taken is refused before it is looked at. -/
theorem buildGates_cons_of_taken (hname : taken.contains name = true) :
    buildGates tree taken ((name, g) :: rest)
      = ⟨[], .error (.duplicateGate tree name)⟩ := by
  rw [buildGates, if_pos hname]
  rfl

theorem buildGates_cons_of_error {e : BuildError}
    (hname : taken.contains name = false)
    (hkind : GateKind.parse g.kind = .error e) :
    buildGates tree taken ((name, g) :: rest) = ⟨[], .error e⟩ := by
  rw [buildGates, if_neg (hname ▸ Bool.false_ne_true), Gate.build, hkind]
  rfl

theorem buildGates_cons_of_ok (hname : taken.contains name = false)
    (hgate : (Gate.build name g).result = .ok gate) :
    buildGates tree taken ((name, g) :: rest)
      = ⟨(Gate.build name g).notices
            ++ (buildGates tree (name :: taken) rest).notices,
          (buildGates tree (name :: taken) rest).result >>= fun gates =>
            .ok (gate :: gates)⟩ := by
  rw [buildGates, if_neg (hname ▸ Bool.false_ne_true)]
  generalize Gate.build name g = built at hgate
  generalize buildGates tree (name :: taken) rest = more
  obtain ⟨notices, result⟩ := built
  obtain rfl : result = .ok gate := hgate
  obtain ⟨later, result⟩ := more
  cases result with
  | error e => rfl
  | ok gates =>
      show Journal.Noted.mk (notices ++ (later ++ [])) _ = _
      rw [List.append_nil]
      rfl

/-- The first `n` records can be built, and not one more. -/
structure BuiltUpTo (tree : Identifier) (taken : List Identifier)
    (rs : List (Identifier × GateRecord)) (n : Nat) : Prop where
  le : n ≤ rs.length
  built : ∃ gates, (buildGates tree taken (rs.take n)).result = .ok gates
  stops : n < rs.length →
    ¬ ∃ gates, (buildGates tree taken (rs.take (n + 1))).result = .ok gates

/-- A gate that is refused ends the building, and is not warned of. -/
theorem warned_of_refused {r : Identifier × GateRecord} {e : BuildError}
    (h : ∀ more, buildGates tree taken (r :: more) = ⟨[], .error e⟩)
    (rest : List (Identifier × GateRecord)) :
    BuiltUpTo tree taken (r :: rest) 0 ∧
      Warned [] (buildGates tree taken (r :: rest)).notices := by
  refine ⟨⟨Nat.zero_le _, ⟨[], rfl⟩, fun _ => ?_⟩, ?_⟩
  · rw [List.take_succ_cons, h]
    rintro ⟨gates, hgates⟩
    exact nomatch hgates
  · rw [h]
    exact .nothing

/-- Gates are built one after the other up to the first that cannot be, and
    those before it are warned of. -/
theorem warned_buildGates (tree : Identifier) (taken : List Identifier)
    (rs : List (Identifier × GateRecord)) : ∃ n,
      BuiltUpTo tree taken rs n ∧
        Warned (rs.take n) (buildGates tree taken rs).notices := by
  -- the names that are taken grow with each gate that is built
  induction rs generalizing taken with
  | nil =>
      exact ⟨0, ⟨Nat.le_refl 0, ⟨[], rfl⟩,
        fun h => absurd h (Nat.lt_irrefl 0)⟩, .nothing⟩
  | cons r rest ih =>
      obtain ⟨name, g⟩ := r
      cases hname : taken.contains name with
      | true =>
          exact ⟨0, warned_of_refused
            (fun _ => buildGates_cons_of_taken hname) rest⟩
      | false =>
          cases hkind : GateKind.parse g.kind with
          | error e =>
              exact ⟨0, warned_of_refused
                (fun _ => buildGates_cons_of_error hname hkind) rest⟩
          | ok kind =>
              have hgate : (Gate.build name g).result
                  = .ok (.ofRecord name kind g) := by
                rw [Gate.result_build, hkind]
                rfl
              obtain ⟨n, ⟨hn, hbuilt, hstops⟩, hwarned⟩ := ih (name :: taken)
              refine ⟨n + 1, ⟨Nat.succ_le_succ hn, ?_, fun hlt => ?_⟩, ?_⟩
              · rw [List.take_succ_cons, buildGates_cons_of_ok hname hgate]
                exact exists_bind_ok_iff.mpr hbuilt
              · rw [List.take_succ_cons, buildGates_cons_of_ok hname hgate]
                exact mt exists_bind_ok_iff.mp
                  (hstops (Nat.lt_of_succ_lt_succ hlt))
              · rw [List.take_succ_cons, buildGates_cons_of_ok hname hgate]
                dsimp only
                rw [Gate.notices_build hkind]
                by_cases hmismatch : Mismatch g
                · rw [Gate.arityNotice?_of_mismatch hmismatch]
                  exact .mismatch hmismatch hwarned
                · rw [Gate.arityNotice?_of_not_mismatch hmismatch name hkind]
                  exact .silent hmismatch hwarned

/-! ## The warnings about a tree -/

/-- The gates can be built, the first as the top gate. -/
structure Passes (gs : List GateRecord) : Prop where
  kinds : ∀ g ∈ gs, GateKind.Reads g.kind
  distinct : Distinct (·.id) gs.tail

/-- The gates under the names that they are given. -/
def named (gs : List GateRecord) : List (Identifier × GateRecord) :=
  (gateNames gs).zip gs

theorem named_take (gs : List GateRecord) (n : Nat) :
    (named gs).take n = named (gs.take n) := by
  have hnames : (gateNames gs).take n = gateNames (gs.take n) := by
    cases gs with
    | nil => simp [gateNames]
    | cons top rest =>
        cases n with
        | zero => rfl
        | succ n => simp [gateNames, nameAll, List.map_take]
  rw [named, List.zip, List.take_zipWith, hnames]
  rfl

theorem exists_named_iff (r : FaultTreeRecord) {gs : List GateRecord} :
    (∃ gates, (buildGates (.tagged .faultTree r.id.written) []
      (named gs)).result = .ok gates) ↔ Passes gs := by
  refine (exists_gatesOf_iff (r := ⟨r.id, gs⟩)).trans ?_
  exact ⟨fun ⟨hkinds, hdistinct⟩ => ⟨hkinds, hdistinct⟩,
    fun ⟨hkinds, hdistinct⟩ => ⟨hkinds, hdistinct⟩⟩

theorem exists_build_iff {r : FaultTreeRecord} :
    (∃ t, (build r).result = .ok t) ↔ Passes r.gates := by
  rw [result_build, exists_bind_ok_iff, gatesOf]
  exact exists_named_iff r

/-- The first gates can be built if all can. -/
theorem Passes.take {gs : List GateRecord} (h : Passes gs) (n : Nat) :
    Passes (gs.take n) := by
  constructor
  · exact fun g hg => h.kinds g (List.mem_of_mem_take hg)
  · exact h.distinct.sublist ((List.take_sublist n gs).tail.map _)

/-- The gates are warned of, and the tree is not. -/
theorem warnings_build {r : FaultTreeRecord}
    {rs : List (Identifier × GateRecord)}
    (h : Warned rs (buildGates (.tagged .faultTree r.id.written) []
      (named r.gates)).notices) :
    Warned rs ((build r).notices.filter (·.level = .warn)) := by
  have hall : ((buildGates (.tagged .faultTree r.id.written) []
      (named r.gates)).notices.filter (·.level = .warn))
        = (buildGates (.tagged .faultTree r.id.written) []
          (named r.gates)).notices :=
    List.filter_eq_self.mpr fun n hn => decide_eq_true (h.level_eq n hn)
  have hbuild : (build r).notices.filter (·.level = .warn)
      = (buildGates (.tagged .faultTree r.id.written) []
          (named r.gates)).notices.filter (·.level = .warn) := by
    rw [build, named]
    generalize buildGates _ _ _ = gates
    obtain ⟨notices, result⟩ := gates
    cases result with
    | error e => rfl
    | ok gates =>
        show (notices ++ [_]).filter _ = _
        rw [List.filter_append]
        exact List.append_nil _
  rw [hbuild, hall]
  exact h

/-! ## What the declared numbers do not change -/

/-- The records are the same, or are thresholds that differ in nothing but
    what is behind the first slash. -/
structure SameButDeclared (g h : GateRecord) : Prop where
  id : h.id = g.id
  gates : h.gates = g.gates
  events : h.events = g.events
  complements : h.complements = g.complements
  kind : h.kind = g.kind ∨ ∃ before n m, '/' ∉ before ∧
    g.kind.toList = before ++ '/' :: n ∧ h.kind.toList = before ++ '/' :: m

variable {h : GateRecord} {kind : GateKind}

theorem SameButDeclared.symm (hs : SameButDeclared g h) :
    SameButDeclared h g := by
  refine ⟨hs.id.symm, hs.gates.symm, hs.events.symm, hs.complements.symm, ?_⟩
  rcases hs.kind with heq | ⟨before, n, m, hbefore, hg, hh⟩
  · exact .inl heq.symm
  · exact .inr ⟨before, m, n, hbefore, hh, hg⟩

theorem SameButDeclared.parse (hs : SameButDeclared g h)
    (hkind : GateKind.parse g.kind = .ok kind) :
    GateKind.parse h.kind = .ok kind := by
  rcases hs.kind with heq | ⟨before, n, m, hbefore, hg, hh⟩
  · rw [heq, hkind]
  · rw [GateKind.parse_of_slash hg hbefore] at hkind
    exact (GateKind.parse_of_slash hh hbefore).mpr hkind

theorem SameButDeclared.follows (hs : SameButDeclared g h)
    (hg : Gate.Follows name g gate) : Gate.Follows name h gate := by
  refine ⟨hg.name, hs.parse hg.kind, ?_, ?_, ?_⟩
  · rw [hs.gates, hg.gates]
  · rw [hs.events, hg.events]
  · rw [hs.complements, hg.complements]

theorem gatesFollow_of_sameButDeclared {rs rs' : List GateRecord}
    {gates : List Gate} (hs : List.Forall₂ SameButDeclared rs rs')
    (hrs : GatesFollow rs gates) : GatesFollow rs' gates := by
  cases hrs with
  | nothing =>
      cases hs
      exact .nothing
  | @gates top rest gate gates htop hrest =>
      obtain ⟨top', rest', hfirst, hsrest, rfl⟩ :=
        List.forall₂_cons_left_iff.mp hs
      refine .gates (hfirst.follows htop) ?_
      -- the name of the top gate is fixed, those of the others are their ids
      clear hs hfirst htop
      induction hsrest generalizing gates with
      | nil =>
          cases hrest
          exact .nil
      | cons hs hsrest ih =>
          obtain ⟨gate, gates, hgate, hmore, rfl⟩ :=
            List.forall₂_cons_left_iff.mp hrest
          refine .cons ?_ (ih hmore)
          rw [gateName, hs.id]
          exact hs.follows hgate

/-- Another number behind the slash makes no other tree. -/
theorem describes_of_sameButDeclared {r r' : FaultTreeRecord} {t : FaultTree}
    (hid : r'.id = r.id)
    (hs : List.Forall₂ SameButDeclared r.gates r'.gates)
    (h : Describes r t) : Describes r' t :=
  ⟨hid ▸ h.name, gatesFollow_of_sameButDeclared hs h.gates, h.distinct⟩

/-- The gates of a tree that are warned of are, in order, the thresholds among
    those before the first gate that cannot be built, whose number behind the
    slash is not that of their inputs. Other numbers there would make the same
    tree. The inputs of each kind are as many as the solver has listed. -/
theorem warns_of_mismatches (r : FaultTreeRecord) :
    (∃ n ≤ r.gates.length,
      Passes (r.gates.take n) ∧
      (n < r.gates.length → ¬ Passes (r.gates.take (n + 1))) ∧
      ((∃ t, (build r).result = .ok t) ↔ n = r.gates.length) ∧
      Warned (named (r.gates.take n))
        ((build r).notices.filter (·.level = .warn))) ∧
    (∀ r' : FaultTreeRecord, r'.id = r.id →
      List.Forall₂ SameButDeclared r.gates r'.gates →
        ∀ t, (build r').result = .ok t ↔ (build r).result = .ok t) ∧
    ∀ kind ∈ inputKinds, ∃ f ∈ gateShape.fields, f.name = kind.1 ∧
      ∀ depth t put, 1 < depth → f.read depth t = .ok put →
        ∃ ids, put = kind.2 ids ∧ ids.length = countListed t := by
  refine ⟨?warned, ?unchanged, ?inputs⟩
  case warned =>
    obtain ⟨n, ⟨hle, hbuilt, hstops⟩, hwarned⟩ :=
      warned_buildGates (.tagged .faultTree r.id.written) [] (named r.gates)
    have hlength : (named r.gates).length = r.gates.length := by
      rw [named, List.length_zip, length_gateNames, Nat.min_self]
    rw [hlength] at hle hstops
    rw [named_take] at hbuilt hstops hwarned
    rw [exists_named_iff] at hbuilt hstops
    refine ⟨n, hle, hbuilt, hstops, ?_, warnings_build hwarned⟩
    rw [exists_build_iff]
    constructor
    · intro h
      by_contra hne
      exact hstops (Nat.lt_of_le_of_ne hle hne) (h.take _)
    · rintro rfl
      rwa [List.take_length] at hbuilt
  case unchanged =>
    intro r' hid hs t
    have hback : List.Forall₂ SameButDeclared r'.gates r.gates :=
      hs.flip.imp fun _ _ h => h.symm
    rw [build_eq_ok_iff, build_eq_ok_iff]
    exact ⟨describes_of_sameButDeclared hid.symm hback,
      describes_of_sameButDeclared hid hs⟩
  case inputs =>
    intro kind hkind
    obtain ⟨f, hf, hname, hread⟩ := field_of_inputKind hkind
    refine ⟨f, hf, hname, fun depth t put hd hput => ?_⟩
    obtain ⟨ids, hids, rfl⟩ := (hread depth t put hd).mp hput
    exact ⟨ids, rfl, hids.length_eq⟩

/-- A tree of one gate with two inputs. -/
def declaring (kind : String) : FaultTreeRecord where
  id := .number (.natural 1)
  gates := [⟨.number (.natural 5), kind, [], [.text "7"], [.text "8"]⟩]

/-- A threshold of three inputs that has two is warned of, and makes the same
    tree as one that declares two. -/
theorem warns_of_mismatches_declaring :
    (build (declaring "1/3")).notices.filter (·.level = .warn)
      = [.arityMismatch .top "1/3" 2] ∧
    (build (declaring "1/ +02")).notices.filter (·.level = .warn) = [] ∧
    ∀ t, (build (declaring "1/ +02")).result = .ok t ↔
      (build (declaring "1/3")).result = .ok t := by
  refine ⟨by decide +kernel, by decide +kernel, ?_⟩
  refine (warns_of_mismatches (declaring "1/3")).2.1 _ rfl (.cons ?_ .nil)
  exact ⟨rfl, rfl, rfl, rfl,
    .inr ⟨['1'], ['3'], [' ', '+', '0', '2'], by decide, rfl, rfl⟩⟩

end FaultTree
end RiskExchange.Model
