import RiskExchange.Proofs.Model.Acceptance

/-! # Declarations — what becomes of the events of a solution

    Every event is either declared or reported as left out, in order
    (`Accounts`): left out are events that a correction gate owns and logical
    constants, whatever their ids and values are. The events are declared if and
    only if the ids of the others are written differently and their values are
    probabilities (`builds_iff_ids_and_values`). Otherwise the error is that of
    the first event with either fault, behind the notices about the events
    before it (`Refused`). -/

namespace RiskExchange.Model

open RiskExchange.Journal (Noted Notice)
open RiskExchange.Journal.Noted (notices_bind result_bind result_bind_ok)
open RiskExchange.Solver

/-- A text that is no probability is reported as it is. -/
theorem Probability.eq_of_normalize_eq_error {s : String}
    {e : InvalidProbability} (h : normalize s = .error e) : e = ⟨s⟩ := by
  rw [normalize] at h
  split_ifs at h
  split at h
  · exact nomatch h
  · exact (Except.error.inj h).symm

namespace ModelData

/-! ## The events that count -/

/-- The event is to be declared: it is primary and no logical constant. -/
def isDeclared (r : EventRecord) : Bool :=
  isPrimary r.correctionGate && !constantLabels.contains r.label

/-- The events that are to be declared. -/
def declared (rs : List EventRecord) : List EventRecord := rs.filter isDeclared

/-- The name that the id of an event gives. -/
def eventName (r : EventRecord) : Identifier := .tagged .basicEvent r.id.written

section Declared

variable {r : EventRecord} {rs : List EventRecord}

theorem declared_cons_of_pos (h : isDeclared r = true) :
    declared (r :: rs) = r :: declared rs := List.filter_cons_of_pos h

theorem declared_cons_of_neg (h : isDeclared r = false) :
    declared (r :: rs) = declared rs :=
  List.filter_cons_of_neg (Bool.eq_false_iff.mp h)

theorem isNone_skipNotice? (r : EventRecord) :
    (skipNotice? r).isNone = isDeclared r := by
  rw [skipNotice?, isDeclared]
  cases isPrimary r.correctionGate with
  | false => rfl
  | true =>
      cases constantLabels.contains r.label with
      | false => rfl
      | true => rfl

theorem skipNotice?_eq_none_iff :
    skipNotice? r = none ↔ isDeclared r = true := by
  rw [← isNone_skipNotice?, Option.isNone_iff_eq_none]

end Declared

/-- Every event is accounted for once, by a declaration or by a notice that it
    is left out, and both are in the order of the events. -/
inductive Accounts :
    List EventRecord → List BasicEvent → List Notice → Prop where
  | nothing : Accounts [] [] []
  | owned {r rs es ns} (hr : isPrimary r.correctionGate = false)
      (hrest : Accounts rs es ns) :
      Accounts (r :: rs) es
        (.skippedOwned r.id.written r.correctionGate.written :: ns)
  | constant {r rs es ns} (hr : isPrimary r.correctionGate = true)
      (hlabel : r.label ∈ constantLabels) (hrest : Accounts rs es ns) :
      Accounts (r :: rs) es (.skippedConstant r.id.written r.label :: ns)
  | declaration {r rs es ns p} (hr : isPrimary r.correctionGate = true)
      (hlabel : r.label ∉ constantLabels)
      (hp : Probability.normalize r.probability.written = .ok p)
      (hrest : Accounts rs es ns) :
      Accounts (r :: rs) (⟨eventName r, r.label, p⟩ :: es) ns

/-- The declaration has the name that the id gives, the label and the value as
    a probability. -/
structure Declares (r : EventRecord) (e : BasicEvent) : Prop where
  name : e.name = .tagged .basicEvent r.id.written
  label : e.label = r.label
  probability :
    Probability.normalize r.probability.written = .ok e.probability

section

variable {r : EventRecord} {rs : List EventRecord} {b : BasicEvent}
  {es : List BasicEvent} {ns : List Notice} {n : Notice} {e : BuildError}

theorem declare_eq_ok_iff :
    declare (eventName r) r = .ok b ↔ Declares r b := by
  rw [declare]
  constructor
  · intro h
    split at h
    next p hp =>
      obtain rfl := Except.ok.inj h
      exact ⟨rfl, rfl, hp⟩
    next => cases h
  · rintro ⟨hname, hlabel, hp⟩
    rw [hp]
    obtain ⟨_, _, p⟩ := b
    simp only at hname hlabel
    rw [hname, hlabel]
    rfl

theorem declare_eq_error_iff : declare (eventName r) r = .error e ↔
    (∀ p, Probability.normalize r.probability.written ≠ .ok p) ∧
      e = .probability (eventName r) ⟨r.probability.written⟩ := by
  rw [declare]
  cases hp : Probability.normalize r.probability.written with
  | ok p =>
      constructor
      · intro h
        cases h
      · rintro ⟨hnot, -⟩
        exact absurd rfl (hnot p)
  | error invalid =>
      obtain rfl := Probability.eq_of_normalize_eq_error hp
      constructor
      · intro h
        refine ⟨?_, (Except.error.inj h).symm⟩
        rintro p ⟨⟩
      · rintro ⟨-, rfl⟩
        rfl

/-! ## What is accounted for -/

namespace Accounts

theorem isDeclared_eq (hr : isPrimary r.correctionGate = true)
    (hlabel : r.label ∉ constantLabels) : isDeclared r = true := by
  simp [isDeclared, hr, hlabel]

theorem declarations (h : Accounts rs es ns) :
    List.Forall₂ Declares (declared rs) es := by
  induction h with
  | nothing => exact .nil
  | owned hr _ ih =>
      rw [declared_cons_of_neg (by simp [isDeclared, hr])]
      exact ih
  | constant hr hlabel _ ih =>
      rw [declared_cons_of_neg (by simp [isDeclared, hlabel])]
      exact ih
  | declaration hr hlabel hp _ ih =>
      rw [declared_cons_of_pos (isDeclared_eq hr hlabel)]
      exact .cons ⟨rfl, rfl, hp⟩ ih

/-- The notices depend on the events only. -/
theorem notices_eq (h : Accounts rs es ns) : ns = rs.filterMap skipNotice? := by
  induction h with
  | nothing => rfl
  | owned hr _ ih =>
      rw [List.filterMap_cons_some (by rw [skipNotice?, hr]; rfl), ← ih]
  | constant hr hlabel _ ih =>
      rw [List.filterMap_cons_some (by simp [skipNotice?, hr, hlabel]; rfl),
        ← ih]
  | declaration hr hlabel _ _ ih =>
      rw [List.filterMap_cons_none
        (skipNotice?_eq_none_iff.mpr (isDeclared_eq hr hlabel)), ← ih]

/-- What is left out is no more than a matter for those who look for it. -/
theorem level_eq (h : Accounts rs es ns) : ∀ n ∈ ns, n.level = .debug := by
  induction h with
  | nothing => exact fun _ hn => nomatch hn
  | owned _ _ ih => exact List.forall_mem_cons.mpr ⟨rfl, ih⟩
  | constant _ _ _ ih => exact List.forall_mem_cons.mpr ⟨rfl, ih⟩
  | declaration _ _ _ _ ih => exact ih

end Accounts

/-! ## One event after the other -/

variable {taken : List Identifier}

/-- Enters one event in the knowledge of the names that are taken. -/
def enter (taken : List Identifier) (r : EventRecord) :
    Except BuildError BasicEvent :=
  if taken.contains (eventName r) then .error (.duplicateEvent (eventName r))
  else declare (eventName r) r

theorem declares_of_enter (h : enter taken r = .ok b) : Declares r b := by
  rw [enter] at h
  split_ifs at h
  exact declare_eq_ok_iff.mp h

theorem declareAll_skipped (h : skipNotice? r = some n) :
    declareAll taken (r :: rs)
      = Noted.note n >>= fun _ => declareAll taken rs := by
  conv_lhs => unfold declareAll
  rw [h]

theorem declareAll_entered (h : isDeclared r = true) :
    declareAll taken (r :: rs) = Noted.ofExcept (enter taken r) >>= fun b =>
      declareAll (eventName r :: taken) rs >>= fun bs => pure (b :: bs) := by
  conv_lhs => unfold declareAll
  rw [skipNotice?_eq_none_iff.mpr h, enter]
  dsimp only
  rw [← eventName]
  cases taken.contains (eventName r) with
  | true => rfl
  | false => rfl

/-- Events in two parts: the second is entered behind the names of the
    first. -/
theorem declareAll_append (taken : List Identifier)
    (before rest : List EventRecord) :
    declareAll taken (before ++ rest) = declareAll taken before >>= fun es =>
      declareAll (((declared before).map eventName).reverse ++ taken) rest
        >>= fun more => pure (es ++ more) := by
  induction before generalizing taken with
  | nil =>
      have hnil : declareAll taken [] = pure [] := rfl
      rw [hnil, pure_bind]
      exact (bind_pure (declareAll taken rest)).symm
  | cons r before ih =>
      rw [List.cons_append]
      cases hskip : skipNotice? r with
      | some n =>
          have hr : isDeclared r = false := by
            simp [← isNone_skipNotice?, hskip]
          rw [declareAll_skipped hskip, declareAll_skipped hskip, ih,
            bind_assoc, declared_cons_of_neg hr]
      | none =>
          have hr := skipNotice?_eq_none_iff.mp hskip
          rw [declareAll_entered hr, declareAll_entered hr, ih,
            declared_cons_of_pos hr]
          simp only [bind_assoc, pure_bind, List.map_cons, List.reverse_cons,
            List.append_assoc, List.nil_append, List.cons_append]

theorem accounts_of_declareAll (h : (declareAll taken rs).result = .ok es) :
    Accounts rs es (declareAll taken rs).notices := by
  induction rs generalizing taken es with
  | nil =>
      obtain rfl := Except.ok.inj h
      exact .nothing
  | cons r rs ih =>
      cases hskip : skipNotice? r with
      | some n =>
          rw [declareAll_skipped hskip] at h ⊢
          have hrest := ih h
          rw [skipNotice?] at hskip
          split_ifs at hskip with hprimary hlabel
          · obtain rfl := Option.some.inj hskip
            exact .owned (by simpa using hprimary) hrest
          · obtain rfl := Option.some.inj hskip
            exact .constant (by simpa using hprimary) (by simpa using hlabel)
              hrest
      | none =>
          have hr := skipNotice?_eq_none_iff.mp hskip
          obtain ⟨hprimary, hlabel⟩ : isPrimary r.correctionGate = true ∧
              r.label ∉ constantLabels := by
            simpa [isDeclared] using hr
          rw [declareAll_entered hr] at h ⊢
          obtain ⟨b, hb, h⟩ := result_bind_ok h
          obtain ⟨bs, hbs, h⟩ := result_bind_ok h
          obtain rfl := Except.ok.inj h
          obtain ⟨hname, hdeclared, hp⟩ := declares_of_enter hb
          rw [notices_bind hb, notices_bind hbs]
          show Accounts _ _ ([] ++ (_ ++ []))
          rw [List.append_nil]
          obtain ⟨_, _, p⟩ := b
          simp only at hname hdeclared
          rw [hname, hdeclared]
          exact .declaration hprimary hlabel hp (ih hbs)

theorem result_declareAll_eq_ok_iff : (declareAll [] rs).result = .ok es ↔
    List.Forall₂ Declares (declared rs) es ∧
      Distinct (·.id) (declared rs) := by
  simp only [result_declareAll, isNone_skipNotice?]
  rw [← declared, enrol_eq_ok_iff (by simp), fresh_tagged_iff]
  simp only [Bool.false_eq_true, if_false]
  rw [← funext₂ fun r b => propext (declare_eq_ok_iff (r := r) (b := b))]
  rfl

/-- The events that are to be declared are, and the others are left out. -/
theorem declareAll_eq_ok_iff : declareAll [] rs = ⟨ns, .ok es⟩ ↔
    Accounts rs es ns ∧ Distinct (·.id) (declared rs) := by
  constructor
  · intro h
    have hresult : (declareAll [] rs).result = .ok es := congrArg Noted.result h
    have haccounts := accounts_of_declareAll hresult
    rw [h] at haccounts
    exact ⟨haccounts, (result_declareAll_eq_ok_iff.mp hresult).2⟩
  · rintro ⟨h, hdistinct⟩
    have hresult : (declareAll [] rs).result = .ok es :=
      result_declareAll_eq_ok_iff.mpr ⟨h.declarations, hdistinct⟩
    have hnotices : (declareAll [] rs).notices = ns :=
      (accounts_of_declareAll hresult).notices_eq.trans h.notices_eq.symm
    rw [← hresult, ← hnotices]

theorem exists_declareAll_iff : (∃ es, (declareAll [] rs).result = .ok es) ↔
    Distinct (·.id) (declared rs) ∧
      ∀ r ∈ declared rs,
        ∃ p, Probability.normalize r.probability.written = .ok p := by
  simp only [result_declareAll_eq_ok_iff, exists_and_right, exists_forall₂_iff]
  rw [and_comm]
  refine and_congr_right fun _ => forall₂_congr fun r _ => ?_
  constructor
  · rintro ⟨b, hb⟩
    exact ⟨b.probability, hb.probability⟩
  · rintro ⟨p, hp⟩
    exact ⟨⟨eventName r, r.label, p⟩, rfl, rfl, hp⟩

end

/-! ## What stops the events -/

/-- The first event that is to be declared and cannot be: its id is written like
    that of one before it, or else its value is no probability. The notices are
    about the events before it. -/
inductive Refused (rs : List EventRecord) :
    List Notice → BuildError → Prop where
  | name {before r after es ns} (hs : rs = before ++ r :: after)
      (hr : isDeclared r = true) (hbefore : Accounts before es ns)
      (hrepeats : Repeats (·.id) (declared before) r) :
      Refused rs ns (.duplicateEvent (.tagged .basicEvent r.id.written))
  | probability {before r after es ns} (hs : rs = before ++ r :: after)
      (hr : isDeclared r = true) (hbefore : Accounts before es ns)
      (hdistinct : Distinct (·.id) (declared before ++ [r]))
      (hp : ∀ p, Probability.normalize r.probability.written ≠ .ok p) :
      Refused rs ns (.probability (.tagged .basicEvent r.id.written)
        ⟨r.probability.written⟩)

section

variable {r : EventRecord} {rs before after : List EventRecord}
  {es : List BasicEvent} {ns : List Notice} {e : BuildError}

/-- The names that are taken behind some events. -/
def namesOf (rs : List EventRecord) : List Identifier :=
  ((declared rs).map eventName).reverse

theorem contains_namesOf_iff : (namesOf rs).contains (eventName r) = true ↔
    ∃ q ∈ declared rs, q.id.written = r.id.written := by
  simp [namesOf, eventName]

theorem enter_eq_error_iff : enter (namesOf rs) r = .error e ↔
    ((∃ q ∈ declared rs, q.id.written = r.id.written) ∧
        e = .duplicateEvent (eventName r)) ∨
      (¬ ∃ q ∈ declared rs, q.id.written = r.id.written) ∧
        (∀ p, Probability.normalize r.probability.written ≠ .ok p) ∧
        e = .probability (eventName r) ⟨r.probability.written⟩ := by
  rw [enter, ← contains_namesOf_iff]
  cases (namesOf rs).contains (eventName r) with
  | true => simp [eq_comm]
  | false => simp [declare_eq_error_iff]

/-- The run ends at an event that cannot be entered. -/
theorem declareAll_of_enter (hbefore : declareAll [] before = ⟨ns, .ok es⟩)
    (hr : isDeclared r = true) (he : enter (namesOf before) r = .error e) :
    declareAll [] (before ++ r :: after) = ⟨ns, .error e⟩ := by
  rw [declareAll_append, hbefore, ← namesOf, List.append_nil,
    declareAll_entered hr, he]
  exact congrArg (Noted.mk · _) (List.append_nil ns)

theorem declareAll_of_refused (h : Refused rs ns e) :
    declareAll [] rs = ⟨ns, .error e⟩ := by
  cases h with
  | name hs hr hbefore hrepeats =>
      rw [hs]
      refine declareAll_of_enter
        (declareAll_eq_ok_iff.mpr ⟨hbefore, hrepeats.distinct⟩) hr ?_
      exact enter_eq_error_iff.mpr (.inl ⟨hrepeats.repeated, rfl⟩)
  | probability hs hr hbefore hdistinct hp =>
      obtain ⟨hdistinct, hnew⟩ := distinct_concat_iff.mp hdistinct
      rw [hs]
      refine declareAll_of_enter
        (declareAll_eq_ok_iff.mpr ⟨hbefore, hdistinct⟩) hr ?_
      exact enter_eq_error_iff.mpr (.inr ⟨hnew, hp, rfl⟩)

/-- Behind the events before it, the first event that cannot be entered is in
    its place in the list of all events. -/
theorem exists_stop (h : (declareAll [] rs).result = .error e) :
    ∃ before r after es ns, rs = before ++ r :: after ∧
      isDeclared r = true ∧ declareAll [] before = ⟨ns, .ok es⟩ ∧
      enter (namesOf before) r = .error e := by
  simp only [result_declareAll, isNone_skipNotice?] at h
  obtain ⟨shown, r, rest, hfilter, ⟨es, hes⟩, he⟩ := enrol_eq_error_iff.mp h
  -- what is left out before the event belongs to the events before it
  obtain ⟨front, back, rfl, rfl, hback⟩ :=
    List.filter_eq_append_iff.mp hfilter
  obtain ⟨skipped, after, rfl, hskipped, hr, -⟩ :=
    List.filter_eq_cons_iff.mp hback
  have hbefore : declared (front ++ skipped) = front.filter isDeclared := by
    rw [declared, List.filter_append, List.filter_eq_nil_iff.mpr hskipped,
      List.append_nil]
  refine ⟨front ++ skipped, r, after, es,
    (declareAll [] (front ++ skipped)).notices,
    (List.append_assoc ..).symm, hr, ?_, ?_⟩
  · have hresult : (declareAll [] (front ++ skipped)).result
        = .ok es := by
      simp only [result_declareAll, isNone_skipNotice?]
      rw [← declared, hbefore]
      exact hes
    rw [← hresult]
  · rw [enter, namesOf, hbefore, List.contains_reverse]
    rw [List.append_nil] at he
    exact he

theorem refused_of_declareAll
    (h : declareAll [] rs = ⟨ns, .error e⟩) : Refused rs ns e := by
  obtain ⟨before, r, after, es, ms, rfl, hr, hbefore, he⟩ :=
    exists_stop (congrArg Noted.result h)
  obtain rfl : ms = ns := congrArg Noted.notices
    ((declareAll_of_enter hbefore hr he).symm.trans h)
  obtain ⟨haccounts, hdistinct⟩ := declareAll_eq_ok_iff.mp hbefore
  rcases enter_eq_error_iff.mp he with ⟨hrepeated, rfl⟩ | ⟨hnew, hp, rfl⟩
  · exact .name rfl hr haccounts ⟨hdistinct, hrepeated⟩
  · exact .probability rfl hr haccounts
      (distinct_concat_iff.mpr ⟨hdistinct, hnew⟩) hp

/-! ## The declarations of a model -/

theorem result_build (rs : List EventRecord) : (build rs).result
    = (declareAll [] rs).result >>= fun es => .ok ⟨es⟩ := by
  rw [build]
  simp only [result_bind]
  rfl

theorem build_of_ok (h : declareAll [] rs = ⟨ns, .ok es⟩) :
    build rs = ⟨ns ++ [.builtModelData es.length], .ok ⟨es⟩⟩ := by
  rw [build, h]
  rfl

theorem build_eq_error_iff :
    build rs = ⟨ns, .error e⟩ ↔ declareAll [] rs = ⟨ns, .error e⟩ := by
  rw [build]
  obtain ⟨ms, result⟩ := declareAll [] rs
  cases result with
  | error d =>
      show (⟨ms, .error d⟩ : Noted BuildError ModelData) = _ ↔ _
      rw [Noted.mk.injEq, Noted.mk.injEq, Except.error.injEq,
        Except.error.injEq]
  | ok es =>
      constructor
      · intro h
        exact nomatch congrArg Noted.result h
      · intro h
        exact nomatch congrArg Noted.result h

/-- What is built depends on the events that are to be declared only. -/
theorem result_build_congr {rs' : List EventRecord}
    (h : declared rs = declared rs') :
    (build rs).result = (build rs').result := by
  simp only [result_build, result_declareAll, isNone_skipNotice?]
  rw [← declared, ← declared, h]

/-- The events of a solution are declared if and only if those that are to be
    declared have ids that are written differently, and probabilities; the
    others do not matter. Every event is then accounted for, and the error is
    otherwise that of the first event to be declared that cannot be. -/
theorem builds_iff_ids_and_values (rs : List EventRecord) :
    ((∃ d, (build rs).result = .ok d) ↔
      Distinct (·.id) (declared rs) ∧ ∀ r ∈ declared rs,
        ∃ p, Probability.normalize r.probability.written = .ok p) ∧
    (∀ rs', declared rs' = declared rs →
      (build rs').result = (build rs).result) ∧
    (∀ d, (build rs).result = .ok d →
      List.Forall₂ Declares (declared rs) d.events ∧
      ∃ ns, (build rs).notices = ns ++ [.builtModelData d.events.length] ∧
        Accounts rs d.events ns ∧ ∀ n ∈ ns, n.level = .debug) ∧
    ∀ ns e, build rs = ⟨ns, .error e⟩ ↔ Refused rs ns e := by
  refine ⟨?_, fun rs' => result_build_congr, ?_, fun ns e => ?_⟩
  · rw [result_build, exists_bind_ok_iff, exists_declareAll_iff]
  · intro d h
    rw [result_build] at h
    obtain ⟨es, hes, h⟩ := bind_eq_ok h
    obtain rfl := Except.ok.inj h
    have haccounts := accounts_of_declareAll hes
    refine ⟨haccounts.declarations, _, ?_, haccounts, haccounts.level_eq⟩
    have hrun : declareAll [] rs = ⟨(declareAll [] rs).notices, .ok es⟩ := by
      rw [← hes]
    rw [build_of_ok hrun]
  · rw [build_eq_error_iff]
    exact ⟨refused_of_declareAll, declareAll_of_refused⟩

end

/-- Events of which the first is the only one that counts: the second is owned
    by a gate and the third is a logical constant. -/
def oneCounts (more : List EventRecord) : List EventRecord :=
  ⟨.number (.natural 7), .text " 00", "Pump", .text ".0015"⟩ ::
  ⟨.text "7", .number (.natural 3), "Pump", .text "n/a"⟩ ::
  ⟨.text "7", .number (.natural 0), "<TRUE>", .text "n/a"⟩ :: more

/-- The declaration of the event that counts. -/
def pump : BasicEvent := ⟨.tagged .basicEvent "7", "Pump", "1.500000E-03"⟩

/-- An id is repeated and a value is none in events that are left out, and it
    does not matter; in a fourth event that counts, the id is reported. -/
theorem builds_iff_ids_and_values_oneCounts :
    ((build (oneCounts [])).result = .ok ⟨[pump]⟩ ∧
      ∃ ns, (build (oneCounts [])).notices = ns ++ [.builtModelData 1] ∧
        Accounts (oneCounts []) [pump] ns) ∧
    build (oneCounts [⟨.text "7", .text "0", "Valve", .text "n/a"⟩])
      = ⟨[.skippedOwned "7" "3", .skippedConstant "7" "<TRUE>"],
        .error (.duplicateEvent (.tagged .basicEvent "7"))⟩ := by
  have hok : (build (oneCounts [])).result = .ok ⟨[pump]⟩ := by
    decide +kernel
  obtain ⟨-, ns, hns, haccounts, -⟩ :=
    (builds_iff_ids_and_values _).2.2.1 _ hok
  have hbefore : Accounts (oneCounts []) [pump]
      [.skippedOwned "7" "3", .skippedConstant "7" "<TRUE>"] :=
    .declaration (by decide +kernel) (by decide) (by decide +kernel)
      (.owned (by decide +kernel)
        (.constant (by decide +kernel) (by decide) .nothing))
  have hrepeats : Repeats EventRecord.id (declared (oneCounts []))
      ⟨.text "7", .text "0", "Valve", .text "n/a"⟩ := by
    refine ⟨?_, ⟨.number (.natural 7), .text " 00", "Pump", .text ".0015"⟩, ?_,
      rfl⟩
    · exact ((builds_iff_ids_and_values _).1.mp ⟨_, hok⟩).1
    · decide +kernel
  exact ⟨⟨hok, ns, hns, haccounts⟩,
    ((builds_iff_ids_and_values _).2.2.2 _ _).mpr
      (.name rfl (by decide +kernel) hbefore hrepeats)⟩

end ModelData
end RiskExchange.Model
