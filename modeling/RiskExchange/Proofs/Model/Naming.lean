import Mathlib.Data.List.Forall2
import RiskExchange.Proofs.Model.Assembled
import RiskExchange.Proofs.Results

/-! # Naming — records entered one after the other under their names

    The entities of a model are built by one scheme: records are entered in
    order, and each is told whether its name is taken (`enrol`). All of them
    are entered if and only if each can be and no name is taken
    (`enrol_eq_ok_iff`). Otherwise the error is that of a record which comes
    behind records that can be entered (`enrol_eq_error_iff`). Functional
    events, sequences, gates, fault trees and events follow the scheme, each
    with a check of its own. -/

namespace RiskExchange.Model

open RiskExchange.Journal.Noted (result_bind result_bind_ok)
open RiskExchange.Solver

/-- A list of results of the elements of a list. -/
theorem exists_forall₂_iff {α β : Type} {R : α → β → Prop} {as : List α} :
    (∃ bs, List.Forall₂ R as bs) ↔ ∀ a ∈ as, ∃ b, R a b := by
  induction as with
  | nil => exact ⟨fun _ a ha => (nomatch ha), fun _ => ⟨[], .nil⟩⟩
  | cons a rest ih =>
      rw [List.forall_mem_cons, ← ih]
      constructor
      · rintro ⟨_, h⟩
        obtain ⟨b, bs, hb, hbs, -⟩ := List.forall₂_cons_left_iff.mp h
        exact ⟨⟨b, hb⟩, ⟨bs, hbs⟩⟩
      · rintro ⟨⟨b, hb⟩, ⟨bs, hbs⟩⟩
        exact ⟨b :: bs, .cons hb hbs⟩

theorem map_eq_map_of_forall₂ {α β γ : Type} {f : α → γ} {g : β → γ}
    {as : List α} {bs : List β}
    (h : List.Forall₂ (fun a b => g b = f a) as bs) : bs.map g = as.map f := by
  rw [eq_comm, ← List.forall₂_eq_eq_eq, List.forall₂_map_left_iff,
    List.forall₂_map_right_iff]
  exact h.imp fun _ _ heq => heq.symm

/-! ## The scheme -/

section Enrol

variable {ε α β : Type}

/-- Enters records one after the other. A record is entered in the knowledge of
    whether its name is taken, and takes it. -/
def enrol (name : α → Identifier) (enter : Bool → α → Except ε β) :
    List Identifier → List α → Except ε (List β)
  | _, [] => .ok []
  | taken, r :: rest =>
    enter (taken.contains (name r)) r >>= fun b =>
      enrol name enter (name r :: taken) rest >>= fun bs => .ok (b :: bs)

variable {name : α → Identifier} {enter : Bool → α → Except ε β}
  {taken : List Identifier} {rs : List α} {bs : List β} {e : ε}

/-- The names of the records are different, and none of them is taken. -/
structure Fresh (name : α → Identifier) (taken : List Identifier)
    (rs : List α) : Prop where
  nodup : (rs.map name).Nodup
  free : ∀ r ∈ rs, name r ∉ taken

theorem fresh_cons_iff {r : α} : Fresh name taken (r :: rs) ↔
    name r ∉ taken ∧ Fresh name (name r :: taken) rs := by
  constructor
  · rintro ⟨hnodup, hfree⟩
    rw [List.map_cons, List.nodup_cons] at hnodup
    refine ⟨hfree r (List.mem_cons_self ..), hnodup.2, ?_⟩
    intro q hq hmem
    rcases List.mem_cons.mp hmem with heq | hmem
    · exact hnodup.1 (List.mem_map.mpr ⟨q, hq, heq⟩)
    · exact hfree q (List.mem_cons_of_mem _ hq) hmem
  · rintro ⟨hr, hnodup, hfree⟩
    constructor
    · rw [List.map_cons, List.nodup_cons]
      refine ⟨?_, hnodup⟩
      intro hmem
      obtain ⟨q, hq, heq⟩ := List.mem_map.mp hmem
      exact hfree q hq (heq ▸ List.mem_cons_self ..)
    · intro q hq
      rcases List.mem_cons.mp hq with rfl | hq
      · exact hr
      · exact fun hmem => hfree q hq (List.mem_cons_of_mem _ hmem)

theorem fresh_nil_iff : Fresh name [] rs ↔ (rs.map name).Nodup :=
  ⟨fun h => h.nodup, fun h => ⟨h, fun _ _ hmem => nomatch hmem⟩⟩

private theorem enrol_cons_eq_ok_iff {r : α} :
    enrol name enter taken (r :: rs) = .ok bs ↔
      ∃ b more, enter (taken.contains (name r)) r = .ok b ∧
        enrol name enter (name r :: taken) rs = .ok more ∧
        bs = b :: more := by
  rw [enrol]
  constructor
  · intro h
    obtain ⟨b, hb, h⟩ := bind_eq_ok h
    obtain ⟨more, hmore, h⟩ := bind_eq_ok h
    exact ⟨b, more, hb, hmore, (Except.ok.inj h).symm⟩
  · rintro ⟨b, more, hb, hmore, rfl⟩
    rw [hb, ok_bind, hmore, ok_bind]

/-- All records are entered if and only if each of them can be and their names
    are fresh, provided that no record is entered under a name that is
    taken. -/
theorem enrol_eq_ok_iff (hrefuses : ∀ r b, enter true r ≠ .ok b) :
    enrol name enter taken rs = .ok bs ↔
      List.Forall₂ (fun r b => enter false r = .ok b) rs bs ∧
      Fresh name taken rs := by
  induction rs generalizing taken bs with
  | nil =>
      rw [enrol, List.forall₂_nil_left_iff]
      constructor
      · rintro ⟨⟩
        exact ⟨rfl, List.nodup_nil, fun r hr => nomatch hr⟩
      · rintro ⟨rfl, -⟩
        rfl
  | cons r rest ih =>
      rw [enrol_cons_eq_ok_iff, fresh_cons_iff]
      constructor
      · rintro ⟨b, more, hb, hmore, rfl⟩
        obtain ⟨hall, hfresh⟩ := ih.mp hmore
        cases htaken : taken.contains (name r) with
        | true =>
            rw [htaken] at hb
            exact absurd hb (hrefuses r b)
        | false =>
            rw [htaken] at hb
            exact ⟨.cons hb hall, by simpa using htaken, hfresh⟩
      · rintro ⟨hall, hr, hfresh⟩
        cases hall with
        | @cons _ b _ more hb hall =>
            refine ⟨b, more, ?_, ih.mpr ⟨hall, hfresh⟩, rfl⟩
            rw [List.contains_eq_mem, decide_eq_false hr]
            exact hb

/-- Entries that are named by their records have the names of the records. -/
theorem names_of_enrol (nameOf : β → Identifier)
    (hname : ∀ r b, enter false r = .ok b → nameOf b = name r)
    (hrefuses : ∀ r b, enter true r ≠ .ok b)
    (h : enrol name enter taken rs = .ok bs) :
    bs.map nameOf = rs.map name ∧ (bs.map nameOf).Nodup := by
  obtain ⟨hall, hfresh⟩ := (enrol_eq_ok_iff hrefuses).mp h
  have heq : bs.map nameOf = rs.map name :=
    map_eq_map_of_forall₂ (hall.imp hname)
  exact ⟨heq, heq ▸ hfresh.nodup⟩

/-- The error is that of a record which cannot be entered behind those before
    it, all of which can. -/
theorem enrol_eq_error_iff :
    enrol name enter taken rs = .error e ↔ ∃ before r after,
      rs = before ++ r :: after ∧
      (∃ bs, enrol name enter taken before = .ok bs) ∧
      enter ((before.map name ++ taken).contains (name r)) r = .error e := by
  induction rs generalizing taken with
  | nil =>
      constructor
      · intro h
        exact nomatch h
      · rintro ⟨before, r, after, heq, -⟩
        exact absurd heq.symm (by simp)
  | cons p rest ih =>
      -- the name of the first record is taken for all that follow
      have hseen (before : List α) (r : α) :
          ((p :: before).map name ++ taken).contains (name r)
            = (before.map name ++ name p :: taken).contains (name r) := by
        simp [Bool.or_left_comm]
      rw [enrol]
      constructor
      · intro h
        rcases bind_eq_error_iff.mp h with hp | ⟨b, hb, h⟩
        · exact ⟨[], p, rest, rfl, ⟨[], rfl⟩, hp⟩
        · rcases bind_eq_error_iff.mp h with hrest | ⟨more, -, h⟩
          · obtain ⟨before, r, after, rfl, ⟨bs, hbs⟩, hr⟩ := ih.mp hrest
            refine ⟨p :: before, r, after, rfl, ⟨b :: bs, ?_⟩, ?_⟩
            · exact enrol_cons_eq_ok_iff.mpr ⟨b, bs, hb, hbs, rfl⟩
            · rw [hseen]
              exact hr
          · exact nomatch h
      · rintro ⟨before, r, after, heq, ⟨bs, hbs⟩, hr⟩
        cases before with
        | nil =>
            obtain ⟨rfl, rfl⟩ := List.cons.inj heq
            exact bind_eq_error_iff.mpr (.inl hr)
        | cons q before =>
            obtain ⟨rfl, rfl⟩ := List.cons.inj heq
            obtain ⟨b, more, hb, hmore, -⟩ := enrol_cons_eq_ok_iff.mp hbs
            rw [hseen] at hr
            have hrest := ih.mpr ⟨before, r, after, rfl, ⟨more, hmore⟩, hr⟩
            exact bind_eq_error_iff.mpr
              (.inr ⟨b, hb, bind_eq_error_iff.mpr (.inl hrest)⟩)

end Enrol

/-! ## What is built by the scheme -/

theorem Gate.name_of_build {name : Identifier} {r : GateRecord} {g : Gate}
    (h : (build name r).result = .ok g) : g.name = name := by
  obtain ⟨kind, -, h⟩ := result_bind_ok h
  dsimp only at h
  split at h
  · obtain ⟨_, -, h⟩ := result_bind_ok h
    cases h
    rfl
  · cases h
    rfl

theorem FaultTree.name_of_build {r : FaultTreeRecord} {t : FaultTree}
    (h : (build r).result = .ok t) : t.name = .tagged .faultTree r.id.written := by
  obtain ⟨gates, -, h⟩ := result_bind_ok h
  obtain ⟨_, -, h⟩ := result_bind_ok h
  cases h
  rfl

/-- Names that may not be repeated. -/
theorem EventTree.distinct_map {α : Type} (name : α → Identifier)
    (rs : List α) :
    distinct (rs.map name) = enrol name
      (fun taken r => if taken then .error (.duplicateInEventTree (name r))
        else .ok (name r)) [] rs := by
  have hseen (seen : List Identifier) :
      (Identifier.firstRepeated? seen (rs.map name)).elim
          (Except.ok (rs.map name))
          (fun id => .error (BuildError.duplicateInEventTree id))
      = enrol name
        (fun taken r => if taken then .error (.duplicateInEventTree (name r))
          else .ok (name r)) seen rs := by
    induction rs generalizing seen with
    | nil => rfl
    | cons r rest ih =>
        rw [enrol, ← ih, List.map_cons, Identifier.firstRepeated?]
        cases seen.contains (name r) with
        | true => rfl
        | false =>
            cases h : Identifier.firstRepeated? (name r :: seen)
                (rest.map name) with
            | none => rfl
            | some id => rfl
  rw [distinct, ← hseen []]
  cases Identifier.firstRepeated? [] (rs.map name) with
  | none => rfl
  | some id => rfl

/-- The gates of a tree. -/
theorem FaultTree.result_buildGates (tree : Identifier)
    (taken : List Identifier) (rs : List (Identifier × GateRecord)) :
    (buildGates tree taken rs).result = enrol (·.1)
      (fun taken r => if taken then .error (.duplicateGate tree r.1)
        else (Gate.build r.1 r.2).result) taken rs := by
  induction rs generalizing taken with
  | nil => rfl
  | cons r rest ih =>
      obtain ⟨name, record⟩ := r
      rw [buildGates, enrol, ← ih]
      cases htaken : taken.contains name with
      | true => rfl
      | false =>
          rw [if_neg Bool.false_ne_true]
          simp only [result_bind]
          rfl

/-- Fault trees. A tree's own errors come before the check of its name. -/
theorem FaultTree.result_buildAll (taken : List Identifier)
    (rs : List FaultTreeRecord) :
    (buildAll taken rs).result = enrol
      (fun r => .tagged .faultTree r.id.written)
      (fun taken r => (build r).result >>= fun t =>
        if taken then .error (.duplicateFaultTree t.name) else .ok t)
      taken rs := by
  induction rs generalizing taken with
  | nil => rfl
  | cons r rest ih =>
      rw [buildAll, enrol, ← ih]
      simp only [result_bind]
      cases hbuild : (build r).result with
      | error e => rfl
      | ok t =>
          rw [ok_bind, ok_bind, name_of_build hbuild]
          cases taken.contains (.tagged .faultTree r.id.written) with
          | true => rfl
          | false =>
              rw [if_neg Bool.false_ne_true]
              simp only [result_bind]
              rfl

/-- The events that are declared at all. -/
theorem ModelData.result_declareAll (taken : List Identifier)
    (rs : List EventRecord) :
    (declareAll taken rs).result = enrol
      (fun r => .tagged .basicEvent r.id.written)
      (fun taken r =>
        if taken then
          .error (.duplicateEvent (.tagged .basicEvent r.id.written))
        else declare (.tagged .basicEvent r.id.written) r)
      taken (rs.filter fun r => (skipNotice? r).isNone) := by
  induction rs generalizing taken with
  | nil => rfl
  | cons r rest ih =>
      unfold declareAll
      cases hskip : skipNotice? r with
      | some n =>
          rw [List.filter_cons_of_neg (by simp [hskip]), ← ih]
          simp only [result_bind]
          rfl
      | none =>
          rw [List.filter_cons_of_pos (by simp [hskip]), enrol, ← ih]
          dsimp only
          cases taken.contains (.tagged .basicEvent r.id.written) with
          | true => rfl
          | false =>
              simp only [Bool.false_eq_true, if_false, result_bind]
              rfl

theorem FaultTree.length_gateNames (rs : List GateRecord) :
    (gateNames rs).length = rs.length := by
  cases rs with
  | nil => rfl
  | cons r rest => simp [gateNames, nameAll]

/-- The gates of a tree have the names that their records give, which are
    different. -/
theorem FaultTree.gateNames_of_build {r : FaultTreeRecord} {t : FaultTree}
    (h : (build r).result = .ok t) :
    t.gates.map (·.name) = gateNames r.gates ∧
      (t.gates.map (·.name)).Nodup := by
  obtain ⟨gates, hgates, h⟩ := result_bind_ok h
  obtain ⟨_, -, h⟩ := result_bind_ok h
  cases h
  rw [result_buildGates] at hgates
  obtain ⟨hnames, hnodup⟩ := names_of_enrol Gate.name
    (fun _ _ => Gate.name_of_build) (by simp) hgates
  refine ⟨?_, hnodup⟩
  rw [hnames, List.map_fst_zip (Nat.le_of_eq (length_gateNames _))]

/-- The declared events have the names that their records give, which are
    different. -/
theorem ModelData.names_of_build {rs : List EventRecord} {d : ModelData}
    (h : (build rs).result = .ok d) :
    d.events.map (·.name) = (rs.filter fun r => (skipNotice? r).isNone).map
        (fun r => .tagged .basicEvent r.id.written) ∧
      (d.events.map (·.name)).Nodup := by
  obtain ⟨events, hevents, h⟩ := result_bind_ok h
  obtain ⟨_, -, h⟩ := result_bind_ok h
  cases h
  rw [result_declareAll] at hevents
  refine names_of_enrol BasicEvent.name (fun r e he => ?_) (by simp) hevents
  rw [if_neg Bool.false_ne_true, declare] at he
  split at he
  · cases he
    rfl
  · exact nomatch he

end RiskExchange.Model
