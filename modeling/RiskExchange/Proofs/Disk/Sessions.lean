import RiskExchange.Disk.Session
import RiskExchange.Proofs.Disk.Directories

/-! # Sessions — what a computation leaves on the disk and how it ends

    Notices do not matter to what follows them, so a session is reasoned about
    through two views: the disk that it leaves (`after`) and its result
    (`outcome`). Each way of building sessions has one equation for either. -/

namespace RiskExchange.Disk.Session

open RiskExchange.Journal (Noted Notice)

variable {ε δ α β : Type}

/-- The disk that a session leaves. -/
def after (m : Session ε α) (d : Disk) : Disk := (m.run d).1

/-- How a session ends. -/
def outcome (m : Session ε α) (d : Disk) : Except ε α := (m.run d).2.result

variable (m : Session ε α) (f : α → Session ε β) (d : Disk)

/-! ## Sequences of sessions -/

@[simp] theorem outcome_pure (a : α) :
    (pure a : Session ε α).outcome d = .ok a := rfl

@[simp] theorem after_pure (a : α) : (pure a : Session ε α).after d = d := rfl

theorem outcome_bind : (m >>= f).outcome d = match m.outcome d with
    | .error e => .error e
    | .ok a => (f a).outcome (m.after d) := by
  change (Session.bind m f).outcome d = _
  unfold Session.bind outcome after
  dsimp only
  cases (m.run d).2.result with
  | error e => rfl
  | ok a => rfl

theorem after_bind : (m >>= f).after d = match m.outcome d with
    | .error _ => m.after d
    | .ok a => (f a).after (m.after d) := by
  change (Session.bind m f).after d = _
  rw [Session.bind, outcome, after]
  dsimp only
  cases (m.run d).2.result with
  | error e => rfl
  | ok a => rfl

variable {m f d}

theorem outcome_bind_of_ok {a : α} (h : m.outcome d = .ok a) :
    (m >>= f).outcome d = (f a).outcome (m.after d) := by
  rw [outcome_bind, h]

theorem after_bind_of_ok {a : α} (h : m.outcome d = .ok a) :
    (m >>= f).after d = (f a).after (m.after d) := by
  rw [after_bind, h]

theorem outcome_bind_of_error {e : ε} (h : m.outcome d = .error e) :
    (m >>= f).outcome d = .error e := by
  rw [outcome_bind, h]

theorem after_bind_of_error {e : ε} (h : m.outcome d = .error e) :
    (m >>= f).after d = m.after d := by
  rw [after_bind, h]

/-- A sequence that succeeds has succeeded in both parts. -/
theorem outcome_bind_ok {b : β} (h : (m >>= f).outcome d = .ok b) :
    ∃ a, m.outcome d = .ok a ∧ (f a).outcome (m.after d) = .ok b := by
  rw [outcome_bind] at h
  cases hm : m.outcome d with
  | error e =>
      rw [hm] at h
      exact nomatch h
  | ok a =>
      rw [hm] at h
      exact ⟨a, rfl, h⟩

instance : LawfulMonad (Session ε) := by
  refine LawfulMonad.mk' (Session ε) ?_ (fun _ _ => rfl) ?_
  · intro α m
    change Session.bind m (fun a => pure a) = m
    refine congrArg Session.mk (funext fun d => ?_)
    rcases m.run d with ⟨d1, notices, result⟩
    cases result with
    | error e => rfl
    | ok a =>
        change (d1, (⟨notices ++ [], .ok a⟩ : Noted ε α)) = _
        rw [List.append_nil]
  · intro α β γ m f g
    change Session.bind (Session.bind m f) g
      = Session.bind m (fun a => Session.bind (f a) g)
    refine congrArg Session.mk (funext fun d => ?_)
    rcases h : m.run d with ⟨d1, notices, result⟩
    cases result with
    | error e => simp only [Session.bind, h]
    | ok a =>
        rcases hf : (f a).run d1 with ⟨d2, more, result⟩
        cases result with
        | error e => simp only [Session.bind, h, hf]
        | ok b => simp only [Session.bind, h, hf, List.append_assoc]

/-- What is undone if a sequence fails is undone if either part fails. -/
theorem onFailure_bind (undo : Disk → Disk) (m : Session ε α)
    (f : α → Session ε β) :
    (m >>= f).onFailure undo
      = m.onFailure undo >>= fun a => (f a).onFailure undo := by
  change (Session.bind m f).onFailure undo
    = Session.bind (m.onFailure undo) (fun a => (f a).onFailure undo)
  refine congrArg Session.mk (funext fun d => ?_)
  rcases h : m.run d with ⟨d1, notices, result⟩
  cases result with
  | error e => simp only [Session.bind, onFailure, h]
  | ok a =>
      rcases hf : (f a).run d1 with ⟨d2, more, result⟩
      cases result with
      | error e => simp only [Session.bind, onFailure, h, hf]
      | ok b => simp only [Session.bind, onFailure, h, hf]

/-! ## Single steps -/

@[simp] theorem outcome_ofNoted (n : Noted ε α) (d : Disk) :
    (ofNoted n).outcome d = n.result := rfl

@[simp] theorem after_ofNoted (n : Noted ε α) (d : Disk) :
    (ofNoted n).after d = d := rfl

@[simp] theorem outcome_note (n : Notice) (d : Disk) :
    (note n : Session ε Unit).outcome d = .ok () := rfl

@[simp] theorem after_note (n : Notice) (d : Disk) :
    (note n : Session ε Unit).after d = d := rfl

@[simp] theorem outcome_fail (e : ε) (d : Disk) :
    (fail e : Session ε α).outcome d = .error e := rfl

@[simp] theorem after_fail (e : ε) (d : Disk) :
    (fail e : Session ε α).after d = d := rfl

@[simp] theorem outcome_query (f : Disk → α) (d : Disk) :
    (query f : Session ε α).outcome d = .ok (f d) := rfl

@[simp] theorem after_query (f : Disk → α) (d : Disk) :
    (query f : Session ε α).after d = d := rfl

theorem change_of_ok {f : Disk → Except ε Disk} {d d' : Disk}
    (h : f d = .ok d') :
    (change f).outcome d = .ok () ∧ (change f).after d = d' := by
  have hrun : (change f).run d = (d', pure ()) := by
    rw [change]
    simp only [h]
  exact ⟨congrArg (·.2.result) hrun, congrArg Prod.fst hrun⟩

theorem change_of_error {f : Disk → Except ε Disk} {d : Disk} {e : ε}
    (h : f d = .error e) :
    (change f).outcome d = .error e ∧ (change f).after d = d := by
  have hrun : (change f).run d = (d, .fail e) := by
    rw [change]
    simp only [h]
  exact ⟨congrArg (·.2.result) hrun, congrArg Prod.fst hrun⟩

/-- A change that succeeds leaves the changed disk. -/
theorem eq_ok_of_change {f : Disk → Except ε Disk} {d : Disk}
    (h : (change f).outcome d = .ok ()) :
    f d = .ok ((change f).after d) := by
  cases hf : f d with
  | error e =>
      rw [(change_of_error hf).1] at h
      exact nomatch h
  | ok d' => rw [(change_of_ok hf).2]

@[simp] theorem outcome_step (f : Disk → Disk × Except ε α) (d : Disk) :
    (step f).outcome d = (f d).2 := rfl

@[simp] theorem after_step (f : Disk → Disk × Except ε α) (d : Disk) :
    (step f).after d = (f d).1 := rfl

/-! ## Sessions inside sessions -/

@[simp] theorem outcome_mapError (g : ε → δ) (m : Session ε α) (d : Disk) :
    (m.mapError g).outcome d = (m.outcome d).mapError g := rfl

@[simp] theorem after_mapError (g : ε → δ) (m : Session ε α) (d : Disk) :
    (m.mapError g).after d = m.after d := rfl

@[simp] theorem outcome_onFailure (undo : Disk → Disk) (m : Session ε α)
    (d : Disk) : (m.onFailure undo).outcome d = m.outcome d := by
  rw [onFailure, outcome]
  dsimp only
  split <;> rfl

theorem after_onFailure (undo : Disk → Disk) (m : Session ε α) (d : Disk) :
    (m.onFailure undo).after d = match m.outcome d with
      | .ok _ => m.after d
      | .error _ => undo (m.after d) := by
  rw [onFailure, outcome, after]
  dsimp only
  cases (m.run d).2.result with
  | error e => rfl
  | ok a => rfl

@[simp] theorem outcome_attempt (m : Session ε α) (d : Disk) :
    (m.attempt : Session δ _).outcome d = .ok (m.outcome d) := rfl

@[simp] theorem after_attempt (m : Session ε α) (d : Disk) :
    (m.attempt : Session δ _).after d = m.after d := rfl

end RiskExchange.Disk.Session
