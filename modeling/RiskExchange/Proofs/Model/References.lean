import RiskExchange.Proofs.Model.Gates

/-! # References — which gate an input of a gate refers to

    A gate input and a gate behind the first are named by their ids in the same
    way, and the top gate is named by no id at all. So the references of a tree
    are those of its record: each refers to the one gate behind the first whose
    record has the id, if there is one, and none to the top gate
    (`references_resolve`). -/

namespace RiskExchange.Model

open RiskExchange.Solver

/-! ## Gates by their place -/

section Places

variable {rs : List GateRecord} {gs : List Gate} {i : Nat} {r : GateRecord}
  {g : Gate}

theorem GatesFollow.length_eq (h : GatesFollow rs gs) :
    rs.length = gs.length := by
  cases h with
  | nothing => rfl
  | gates _ hrest => exact congrArg Nat.succ hrest.length_eq

/-- The gate at a place follows the record at that place. -/
theorem GatesFollow.follows (h : GatesFollow rs gs) (hr : rs[i]? = some r)
    (hg : gs[i]? = some g) :
    Gate.Follows (if i = 0 then .top else gateName r) r g := by
  cases h with
  | nothing => exact nomatch hr
  | @gates top rest first gs htop hrest =>
      cases i with
      | zero =>
          obtain rfl := Option.some.inj hr
          obtain rfl := Option.some.inj hg
          exact htop
      | succ i =>
          rw [List.getElem?_cons_succ] at hr hg
          obtain ⟨hi, rfl⟩ := List.getElem?_eq_some_iff.mp hr
          obtain ⟨hi', rfl⟩ := List.getElem?_eq_some_iff.mp hg
          rw [if_neg (Nat.succ_ne_zero i)]
          exact hrest.get hi hi'

end Places

/-! ## What a reference refers to -/

namespace FaultTree

/-- The reference stands for a raw id of the record. It is the name of the gate
    at a place, in writing too, if and only if a record behind the first with
    that id is at this place; of one gate at most; of the gate of each record
    behind the first with that id; and never of the top gate. -/
structure Resolved (r : FaultTreeRecord) (t : FaultTree) (raw : RawId)
    (ref : Identifier) : Prop where
  eq_name_iff : ∀ j record gate, r.gates[j]? = some record →
    t.gates[j]? = some gate →
    (ref = gate.name ↔ j ≠ 0 ∧ record.id.written = raw.written) ∧
      (ref.text = gate.name.text ↔ ref = gate.name)
  unique : ∀ (j k : Nat) (g g' : Gate), t.gates[j]? = some g →
    t.gates[k]? = some g' → ref = g.name → ref = g'.name → j = k
  declared : ∀ j record, r.gates[j]? = some record → j ≠ 0 →
    record.id.written = raw.written →
    ∃ gate, t.gates[j]? = some gate ∧ Gate.Follows ref record gate
  not_top : ∀ gate, t.top? = some gate →
    gate.name = .top ∧ ref.text ≠ gate.name.text

variable {r : FaultTreeRecord} {t : FaultTree}

namespace Describes

theorem exists_gate (h : Describes r t) {j : Nat} {record : GateRecord}
    (hr : r.gates[j]? = some record) :
    ∃ gate, t.gates[j]? = some gate ∧
      Gate.Follows (if j = 0 then .top else gateName record) record gate := by
  obtain ⟨hj, -⟩ := List.getElem?_eq_some_iff.mp hr
  rw [h.gates.length_eq] at hj
  exact ⟨_, List.getElem?_eq_getElem hj,
    h.gates.follows hr (List.getElem?_eq_getElem hj)⟩

theorem nodup_names (h : Describes r t) : (t.gates.map (·.name)).Nodup := by
  refine (List.nodup_map_iff Identifier.text_injective).mp ?_
  rw [List.map_map]
  exact h.distinct

/-- A raw id, named as a gate. -/
theorem resolved (h : Describes r t) (raw : RawId) :
    Resolved r t raw (.tagged .gate raw.written) where
  eq_name_iff := by
    intro j record gate hr hg
    refine ⟨?_, Identifier.text_injective.eq_iff⟩
    rw [(h.gates.follows hr hg).name]
    by_cases hj : j = 0
    · simp [hj]
    · simp [hj, gateName, eq_comm]
  unique := by
    intro j k g g' hg hg' hname hname'
    obtain ⟨hj, -⟩ := List.getElem?_eq_some_iff.mp hg
    refine (List.getElem?_inj (by simpa using hj) h.nodup_names).mp ?_
    rw [List.getElem?_map, List.getElem?_map, hg, hg', Option.map_some,
      Option.map_some, ← hname, ← hname']
  declared := by
    intro j record hr hj hid
    obtain ⟨gate, hg, hfollows⟩ := h.exists_gate hr
    rw [if_neg hj, gateName, hid] at hfollows
    exact ⟨gate, hg, hfollows⟩
  not_top := by
    intro gate htop
    have hg : t.gates[0]? = some gate := by
      rw [← List.head?_eq_getElem?]
      exact htop
    obtain ⟨hpos, -⟩ := List.getElem?_eq_some_iff.mp hg
    rw [← h.gates.length_eq] at hpos
    have hname : gate.name = .top :=
      (h.gates.follows (List.getElem?_eq_getElem hpos) hg).name
    refine ⟨hname, ?_⟩
    rw [hname]
    intro htext
    cases Identifier.text_injective htext

end Describes

/-- The references of a tree that has been built are those of its record: each
    gate input of each gate refers to what its raw id refers to. -/
theorem references_resolve (h : (build r).result = .ok t) :
    List.Forall₂ (fun record gate =>
      List.Forall₂ (Resolved r t) record.gates gate.gates) r.gates t.gates := by
  have hdescribes := build_eq_ok_iff.mp h
  refine List.forall₂_iff_get.mpr ⟨hdescribes.gates.length_eq, ?_⟩
  intro i hr hg
  have hfollows := hdescribes.gates.follows (List.getElem?_eq_getElem hr)
    (List.getElem?_eq_getElem hg)
  show List.Forall₂ _ r.gates[i].gates t.gates[i].gates
  rw [hfollows.gates, List.forall₂_map_right_iff, List.forall₂_same]
  intro raw _
  exact hdescribes.resolved raw

/-- The reference of the first gate spells its own id and refers to the second
    gate, which has this id too; that of the second gate refers to none. -/
theorem references_resolve_reusedId :
    (build (reusedId [])).result = .ok reusedIdTree ∧
      Resolved (reusedId []) reusedIdTree (.text "5") (.tagged .gate "5") ∧
      Resolved (reusedId []) reusedIdTree (.text "9") (.tagged .gate "9") ∧
      reusedIdTree.gates.map (·.name) = [.top, .tagged .gate "5"] := by
  have hok : (build (reusedId [])).result = .ok reusedIdTree := by
    decide +kernel
  have hall := references_resolve hok
  obtain ⟨hfirst, hrest⟩ := List.forall₂_cons.mp hall
  obtain ⟨hsecond, -⟩ := List.forall₂_cons.mp hrest
  exact ⟨hok, (List.forall₂_cons.mp hfirst).1,
    (List.forall₂_cons.mp hsecond).1, rfl⟩

end FaultTree
end RiskExchange.Model
