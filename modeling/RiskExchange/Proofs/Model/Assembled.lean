import RiskExchange.Model.Assembly

/-! # Assembled models — what is known of a model that has been built

    The tree and the logic of a model come from one list of sequence records,
    and a repeated name stops the building rather than being left out, so the
    logic has one list of codes for each sequence of the tree
    (`assembled_logic`). -/

namespace RiskExchange

open RiskExchange.Journal (Noted)

/-- The result of a sequence is the sequence of the results. -/
theorem Journal.Noted.result_bind {ε α β : Type} (m : Noted ε α)
    (f : α → Noted ε β) :
    (m >>= f).result = m.result >>= fun a => (f a).result := by
  show (Noted.bind m f).result = _
  rw [Noted.bind]
  cases m.result with
  | error e => rfl
  | ok a => rfl

/-- Behind a first part that succeeds, the notices of the second follow. -/
theorem Journal.Noted.notices_bind {ε α β : Type} {m : Noted ε α} {a : α}
    (h : m.result = .ok a) (f : α → Noted ε β) :
    (m >>= f).notices = m.notices ++ (f a).notices := by
  show (Noted.bind m f).notices = _
  rw [Noted.bind, h]

/-- A noted computation that succeeds has succeeded in both parts. -/
theorem Journal.Noted.result_bind_ok {ε α β : Type} {m : Noted ε α}
    {f : α → Noted ε β} {b : β} (h : (m >>= f).result = .ok b) :
    ∃ a, m.result = .ok a ∧ (f a).result = .ok b := by
  change (Noted.bind m f).result = .ok b at h
  rw [Noted.bind] at h
  cases hm : m.result with
  | error e =>
      rw [hm] at h
      exact nomatch h
  | ok a =>
      rw [hm] at h
      exact ⟨a, rfl, h⟩

/-- What is only returned adds nothing. -/
theorem Journal.Noted.bind_pure {ε α : Type} (m : Noted ε α) :
    (m.bind fun a => pure a) = m := by
  obtain ⟨notices, result⟩ := m
  cases result with
  | error e => rfl
  | ok a => exact congrArg (Noted.mk · _) (List.append_nil notices)

/-- How a sequence is divided makes no difference. -/
theorem Journal.Noted.bind_bind {ε α β γ : Type} (m : Noted ε α)
    (f : α → Noted ε β) (g : β → Noted ε γ) :
    (m.bind f).bind g = m.bind fun a => (f a).bind g := by
  obtain ⟨notices, result⟩ := m
  cases result with
  | error e => rfl
  | ok a =>
      show Noted.bind ⟨notices ++ (f a).notices, (f a).result⟩ g
        = ⟨notices ++ ((f a).bind g).notices, ((f a).bind g).result⟩
      rw [Noted.bind, Noted.bind]
      cases (f a).result with
      | error e => rfl
      | ok b => exact congrArg (Noted.mk · _) (List.append_assoc ..)

instance Journal.Noted.lawfulMonad {ε : Type} : LawfulMonad (Noted ε) :=
  .mk' _ bind_pure (fun _ _ => rfl) bind_bind

namespace Model

open RiskExchange.Journal.Noted (result_bind_ok)

/-- Names that are distinct are kept. -/
theorem EventTree.distinct_eq_ok {ids names : List Identifier}
    (h : distinct ids = .ok names) : names = ids := by
  rw [distinct] at h
  split at h
  · exact (Except.ok.inj h).symm
  · exact nomatch h

/-- The event tree of a solution, and the logic of its sequences. -/
theorem EventTree.build_eq_ok {h : Solver.Header}
    {functionalEvents : List Solver.FunctionalEventRecord}
    {sequences : List Solver.SequenceRecord}
    {tree : EventTree} {logic : CutSet.SequenceLogic}
    (hb : (build h functionalEvents sequences).result = .ok (tree, logic)) :
    tree.name = h.tree.name ∧ tree.sequences.length = sequences.length ∧
      logic = logicOf h sequences := by
  obtain ⟨events, -, hb⟩ := result_bind_ok hb
  obtain ⟨names, hnames, hb⟩ := result_bind_ok hb
  obtain ⟨_, -, hb⟩ := result_bind_ok hb
  cases hb
  refine ⟨rfl, ?_, rfl⟩
  rw [EventTree.distinct_eq_ok hnames, List.length_map]

/-- The logic of a model has one list of codes for each sequence, under the
    name of the event tree and the sequence count as it is written. -/
theorem assembled_logic {s : Solver.Solution} {a : Assembly}
    (h : (assemble s).result = .ok a) :
    a.logic.sequences.length = a.model.eventTree.sequences.length ∧
      a.logic.key = a.model.eventTree.name ++ "-"
        ++ s.header.sequenceCount.written := by
  obtain ⟨⟨tree, logic⟩, htree, h⟩ := result_bind_ok h
  obtain ⟨faultTrees, -, h⟩ := result_bind_ok h
  obtain ⟨modelData, -, h⟩ := result_bind_ok h
  obtain ⟨_, -, h⟩ := result_bind_ok h
  cases h
  obtain ⟨hname, hlength, rfl⟩ := EventTree.build_eq_ok htree
  refine ⟨?_, ?_⟩
  · rw [hlength]
    exact List.length_map ..
  · rw [hname]
    rfl

end Model
end RiskExchange
