import Mathlib.Data.List.Forall2
import Mathlib.Logic.Relation
import RiskExchange.Json.Decoder
import RiskExchange.Proofs.Json.Rereading

/-! # Records — what decoders see of a tree

    A decoder may not care about some changes of the tree it reads: what it
    reads is the same afterwards, or the same up to a view of it
    (`Decoder.Respects`). Lists respect such changes of their elements, and
    records those of the values of their fields
    (`RecordShape.Follows.respects`), whether they are written as objects or as
    arrays. -/

namespace RiskExchange.Json

variable {α β σ : Type}

/-! ## Decoders that have succeeded -/

theorem liftFault_eq_ok {x : Except Fault α} {a : α} :
    liftFault x = .ok a ↔ x = .ok a := by
  cases x with
  | error f => exact ⟨fun h => (nomatch h), fun h => (nomatch h)⟩
  | ok b =>
      exact ⟨fun h => congrArg Except.ok (Except.ok.inj h),
        fun h => congrArg Except.ok (Except.ok.inj h)⟩

private theorem check_listFault_eq_ok {close : Close} :
    checkClose close.listFault? = .ok () ↔ close = .closed := by
  constructor
  · intro h
    cases close <;> first | rfl | exact nomatch h
  · rintro rfl
    rfl

private theorem check_objectFault_eq_ok {close : Close} :
    checkClose close.objectFault? = .ok () ↔ close = .closed := by
  constructor
  · intro h
    cases close <;> first | rfl | exact nomatch h
  · rintro rfl
    rfl

variable {depth : Nat} {close : Close} {ts : List Tree}
  {ms : List (StringLiteral × Tree)}

theorem Decoder.list_array_eq_ok {d : Decoder α} {as : List α} :
    d.list depth (.array ts close) = .ok as
      ↔ 1 < depth ∧ items d (depth - 1) ts = .ok as ∧ close = .closed := by
  rw [Decoder.list]
  by_cases hd : depth ≤ 1
  · rw [if_pos hd]
    constructor
    · intro h
      exact nomatch h
    · rintro ⟨hlt, -, -⟩
      exact absurd hlt (Nat.not_lt.mpr hd)
  · rw [if_neg hd]
    constructor
    · intro h
      obtain ⟨-, -, h⟩ := bind_eq_ok h
      obtain ⟨bs, hbs, h⟩ := bind_eq_ok h
      obtain ⟨_, hclose, h⟩ := bind_eq_ok h
      cases h
      exact ⟨Nat.not_le.mp hd, hbs, check_listFault_eq_ok.mp hclose⟩
    · rintro ⟨-, has, rfl⟩
      rw [has]
      rfl

theorem Decoder.items_cons_eq_ok {d : Decoder α} {t : Tree} {as : List α} :
    items d depth (t :: ts) = .ok as ↔ ∃ a rest,
      d depth t = .ok a ∧ items d depth ts = .ok rest ∧ as = a :: rest := by
  constructor
  · intro h
    obtain ⟨a, ha, h⟩ := bind_eq_ok h
    obtain ⟨rest, hrest, h⟩ := bind_eq_ok h
    exact ⟨a, rest, ha, hrest, (Except.ok.inj h).symm⟩
  · rintro ⟨a, rest, ha, hrest, rfl⟩
    rw [items, ha, hrest]
    rfl

namespace RecordShape

variable {r : RecordShape σ α} {s s' : σ} {a : α}

theorem decode_object_eq_ok :
    r.decode depth (.object ms close) = .ok a
      ↔ 1 < depth ∧ close = .closed ∧
        ∃ s, r.readMembers (depth - 1) r.empty ms = .ok s ∧
          r.finish s = .ok a := by
  rw [decode]
  by_cases hd : depth ≤ 1
  · rw [if_pos hd]
    constructor
    · intro h
      exact nomatch h
    · rintro ⟨hlt, -, -⟩
      exact absurd hlt (Nat.not_lt.mpr hd)
  · rw [if_neg hd]
    constructor
    · intro h
      obtain ⟨-, -, h⟩ := bind_eq_ok h
      obtain ⟨s, hs, h⟩ := bind_eq_ok h
      obtain ⟨_, hclose, h⟩ := bind_eq_ok h
      exact ⟨Nat.not_le.mp hd, check_objectFault_eq_ok.mp hclose, s, hs, h⟩
    · rintro ⟨-, rfl, s, hs, ha⟩
      rw [hs]
      exact ha

theorem decode_array_eq_ok :
    r.decode depth (.array ts close) = .ok a
      ↔ 1 < depth ∧
        ∃ s, r.readElements (depth - 1) close 0 r.empty r.fields ts = .ok s ∧
          r.finish s = .ok a := by
  rw [decode]
  by_cases hd : depth ≤ 1
  · rw [if_pos hd]
    constructor
    · intro h
      exact nomatch h
    · rintro ⟨hlt, -⟩
      exact absurd hlt (Nat.not_lt.mpr hd)
  · rw [if_neg hd]
    constructor
    · intro h
      obtain ⟨-, -, h⟩ := bind_eq_ok h
      obtain ⟨s, hs, h⟩ := bind_eq_ok h
      exact ⟨Nat.not_le.mp hd, s, hs, h⟩
    · rintro ⟨-, s, hs, ha⟩
      rw [hs]
      exact ha

/-- What becomes of a draft when a member is read: the member fills a field
    that was empty, or it is passed over. -/
inductive Takes (r : RecordShape σ α) (depth : Nat) :
    σ → StringLiteral × Tree → σ → Prop where
  | fill {s : σ} {m : StringLiteral × Tree} {name : String} {f : Field σ}
      {put : σ → σ} (hk : m.1.read = .ok name)
      (hf : r.fields.find? (·.name == name) = some f)
      (he : f.filled s = false) (hr : f.read depth m.2 = .ok put) :
      Takes r depth s m (put s)
  | pass {s : σ} {m : StringLiteral × Tree} {name : String}
      (hk : m.1.read = .ok name)
      (hf : r.fields.find? (·.name == name) = none)
      (hp : m.2.pass = .ok ()) : Takes r depth s m s

theorem readMember_eq_ok {m : StringLiteral × Tree} :
    r.readMember depth s m = .ok s' ↔ r.Takes depth s m s' := by
  constructor
  · intro h
    obtain ⟨name, hname, h⟩ := bind_eq_ok h
    have hk := liftFault_eq_ok.mp hname
    cases hf : r.fields.find? (·.name == name) with
    | none =>
        simp only [hf] at h
        obtain ⟨_, hpass, h⟩ := bind_eq_ok h
        cases h
        exact .pass hk hf (liftFault_eq_ok.mp hpass)
    | some f =>
        simp only [hf] at h
        split at h
        · exact nomatch h
        · rename_i he
          obtain ⟨put, hput, h⟩ := bind_eq_ok h
          cases h
          exact .fill hk hf (Bool.eq_false_iff.mpr he) hput
  · intro h
    cases h with
    | fill hk hf he hr =>
        rw [readMember, hk]
        simp only [liftFault, ok_bind, hf, he, hr]
        rfl
    | pass hk hf hp =>
        rw [readMember, hk]
        simp only [liftFault, ok_bind, hf, hp]
        rfl

theorem readMembers_cons_eq_ok {m : StringLiteral × Tree} :
    r.readMembers depth s (m :: ms) = .ok s' ↔ ∃ s₁,
      r.Takes depth s m s₁ ∧ r.readMembers depth s₁ ms = .ok s' := by
  constructor
  · intro h
    obtain ⟨s₁, hm, h⟩ := bind_eq_ok h
    exact ⟨s₁, readMember_eq_ok.mp hm, h⟩
  · rintro ⟨s₁, hm, h⟩
    rw [readMembers, readMember_eq_ok.mpr hm]
    exact h

theorem readElements_cons_eq_ok {index : Nat} {f : Field σ}
    {fields : List (Field σ)} {t : Tree} :
    r.readElements depth close index s (f :: fields) (t :: ts) = .ok s'
      ↔ ∃ put, f.read depth t = .ok put ∧
        r.readElements depth close (index + 1) (put s) fields ts = .ok s' := by
  constructor
  · intro h
    obtain ⟨put, hput, h⟩ := bind_eq_ok h
    exact ⟨put, hput, h⟩
  · rintro ⟨put, hput, h⟩
    rw [readElements, hput]
    exact h

end RecordShape

/-! ## Changes that a decoder does not see -/

/-- Where one tree is read, a changed one is read too, and a view of what is
    read is the same. The nesting that is left has to be at least as given. -/
def Decoder.Respects (d : Decoder α) (least : Nat)
    (edit : Tree → Tree → Prop) (view : α → β) : Prop :=
  ∀ depth t t' a, least ≤ depth → edit t t' → d depth t = .ok a →
    ∃ a', d depth t' = .ok a' ∧ view a' = view a

/-- Changes of the elements of an array. -/
inductive ItemsEdit (edit : Tree → Tree → Prop) : Tree → Tree → Prop where
  | same (t : Tree) : ItemsEdit edit t t
  | array {ts ts' : List Tree} (h : List.Forall₂ edit ts ts')
      (close : Close) : ItemsEdit edit (.array ts close) (.array ts' close)

namespace Decoder

variable {d : Decoder α} {least : Nat} {edit : Tree → Tree → Prop}
  {view : α → β}

theorem Respects.mono {least' : Nat} (h : d.Respects least edit view)
    (hle : least ≤ least') : d.Respects least' edit view :=
  fun depth t t' a hd => h depth t t' a (Nat.le_trans hle hd)

/-- What is not changed is read as it was. -/
theorem respects_eq (d : Decoder α) (least : Nat) (view : α → β) :
    d.Respects least Eq view := by
  rintro depth t _ a - rfl ha
  exact ⟨a, ha, rfl⟩

/-- Changes may be made one after the other. -/
theorem Respects.reflTransGen (h : d.Respects least edit view) :
    d.Respects least (Relation.ReflTransGen edit) view := by
  intro depth t t' a hd ht ha
  induction ht with
  | refl => exact ⟨a, ha, rfl⟩
  | tail _ hstep ih =>
      obtain ⟨b, hb, hview⟩ := ih
      obtain ⟨c, hc, hview'⟩ := h depth _ _ b hd hstep hb
      exact ⟨c, hc, hview'.trans hview⟩

private theorem items_of_respects (h : d.Respects least edit view)
    (hd : least ≤ depth) {ts ts' : List Tree} {as : List α}
    (hts : List.Forall₂ edit ts ts') (has : items d depth ts = .ok as) :
    ∃ as', items d depth ts' = .ok as' ∧ as'.map view = as.map view := by
  induction hts generalizing as with
  | nil =>
      cases has
      exact ⟨[], rfl, rfl⟩
  | @cons t t' ts ts' ht hts ih =>
      obtain ⟨a, rest, ha, hrest, rfl⟩ := items_cons_eq_ok.mp has
      obtain ⟨a', ha', hview⟩ := h depth t t' a hd ht ha
      obtain ⟨rest', hrest', hviews⟩ := ih hrest
      refine ⟨a' :: rest',
        items_cons_eq_ok.mpr ⟨a', rest', ha', hrest', rfl⟩, ?_⟩
      rw [List.map_cons, List.map_cons, hview, hviews]

theorem listOrNull_null (d : Decoder α) (depth : Nat) :
    d.listOrNull depth .null = .ok [] := rfl

theorem listOrNull_array (d : Decoder α) (depth : Nat) (ts : List Tree)
    (close : Close) :
    d.listOrNull depth (.array ts close) = d.list depth (.array ts close) := by
  rw [listOrNull, nullable]
  · cases d.list depth (.array ts close) <;> rfl
  · exact fun h => nomatch h

theorem Respects.listOrNull (h : d.Respects least edit view) :
    d.listOrNull.Respects (least + 1) (ItemsEdit edit) (List.map view) := by
  intro depth t t' as hd ht has
  cases ht with
  | same => exact ⟨as, has, rfl⟩
  | array hts close =>
      rw [listOrNull_array] at has
      obtain ⟨hlt, hitems, rfl⟩ := list_array_eq_ok.mp has
      obtain ⟨as', hitems', hviews⟩ :=
        items_of_respects h (Nat.le_sub_one_of_lt hd) hts hitems
      refine ⟨as', ?_, hviews⟩
      rw [listOrNull_array]
      exact list_array_eq_ok.mpr ⟨hlt, hitems', rfl⟩

end Decoder

/-! ## Changes in the fields of a record -/

/-- The place of a field in a record, and which changes of its value are
    meant. -/
structure Slot where
  name : String
  edit : Tree → Tree → Prop

/-- A change of a member's value. -/
inductive MemberEdit (slots : List Slot) :
    StringLiteral × Tree → StringLiteral × Tree → Prop where
  | same (m : StringLiteral × Tree) : MemberEdit slots m m
  | value {key : StringLiteral} {slot : Slot} {t t' : Tree}
      (hs : slot ∈ slots) (hk : key.read = .ok slot.name)
      (h : slot.edit t t') : MemberEdit slots (key, t) (key, t')

/-- Changes of values that are given without names. -/
inductive ElementsEdit : List Slot → List Tree → List Tree → Prop where
  | same (slots : List Slot) (ts : List Tree) : ElementsEdit slots ts ts
  | keep {slot : Slot} {slots : List Slot} {ts ts' : List Tree} (t : Tree)
      (hr : ElementsEdit slots ts ts') :
      ElementsEdit (slot :: slots) (t :: ts) (t :: ts')
  | value {slot : Slot} {slots : List Slot} {t t' : Tree} {ts ts' : List Tree}
      (h : slot.edit t t') (hr : ElementsEdit slots ts ts') :
      ElementsEdit (slot :: slots) (t :: ts) (t' :: ts')

/-- Changes of the values of a record's fields. -/
inductive FieldsEdit (slots : List Slot) : Tree → Tree → Prop where
  | same (t : Tree) : FieldsEdit slots t t
  | object {ms ms' : List (StringLiteral × Tree)}
      (h : List.Forall₂ (MemberEdit slots) ms ms') (close : Close) :
      FieldsEdit slots (.object ms close) (.object ms' close)
  | array {ts ts' : List Tree} (h : ElementsEdit slots ts ts')
      (close : Close) : FieldsEdit slots (.array ts close) (.array ts' close)

/-- A field of a draft that is seen through a view belongs to a slot: what is
    put into the draft depends on the view only, and is the same for a changed
    value. -/
structure Field.Follows (f : Field σ) (slot : Slot) (least : Nat)
    (view : σ → σ) : Prop where
  name : f.name = slot.name
  filled : ∀ s s', view s' = view s → f.filled s' = f.filled s
  puts : ∀ depth t put, f.read depth t = .ok put →
    ∀ s s', view s' = view s → view (put s') = view (put s)
  edits : ∀ depth t t' put, least ≤ depth → slot.edit t t' →
    f.read depth t = .ok put → ∃ put', f.read depth t' = .ok put' ∧
      ∀ s s', view s' = view s → view (put' s') = view (put s)

/-- A view shows of a field what a view of its value shows. -/
theorem Field.follows_make {name : String} {optional : Bool}
    {get : σ → Option α} {set : α → σ → σ} {d : Decoder α} {least : Nat}
    {edit : Tree → Tree → Prop} {view : σ → σ} {viewValue : α → α}
    (hd : d.Respects least edit viewValue)
    (hget : ∀ s, (get (view s)).isSome = (get s).isSome)
    (hset : ∀ a s, view (set a s) = set (viewValue a) (view s)) :
    (make name optional get set d).Follows ⟨name, edit⟩ least view where
  name := rfl
  filled s s' h := by
    change (get s').isSome = (get s).isSome
    rw [← hget, ← hget s, h]
  puts depth t put hput s s' h := by
    obtain ⟨a, -, hput⟩ := bind_eq_ok hput
    cases hput
    rw [hset, hset, h]
  edits depth t t' put hdepth ht hput := by
    obtain ⟨a, ha, hput⟩ := bind_eq_ok hput
    cases hput
    obtain ⟨a', ha', hview⟩ := hd depth t t' a hdepth ht ha
    refine ⟨set a', ?_, ?_⟩
    · change (d depth t' >>= fun v => pure (set v)) = _
      rw [ha']
      rfl
    · intro s s' h
      rw [hset, hset, hview, h]

namespace RecordShape

/-- A record of which every field belongs to a slot, in order. A view of the
    draft finishes as a view of the record. -/
structure Follows (r : RecordShape σ α) (slots : List Slot) (least : Nat)
    (view : σ → σ) (viewResult : α → α) : Prop where
  names : (slots.map (·.name)).Nodup
  fields : List.Forall₂ (fun f slot => f.Follows slot least view)
    r.fields slots
  finish : ∀ s, r.finish (view s) = (r.finish s).map viewResult

variable {r : RecordShape σ α} {slots : List Slot} {least : Nat}
  {view : σ → σ} {viewResult : α → α} {s s' d : σ}

/-- The field of a slot is found under its name. -/
private theorem find?_of_mem {fields : List (Field σ)}
    (hf : List.Forall₂ (fun f slot => f.Follows slot least view) fields slots)
    (hn : (slots.map (·.name)).Nodup) {slot : Slot} (hs : slot ∈ slots) :
    ∃ f, fields.find? (·.name == slot.name) = some f ∧
      f.Follows slot least view := by
  induction hf with
  | nil => exact nomatch hs
  | @cons f first fields rest hfirst hrest ih =>
      rw [List.map_cons, List.nodup_cons] at hn
      obtain ⟨hfresh, hn⟩ := hn
      rcases List.mem_cons.mp hs with rfl | hs
      · refine ⟨f, ?_, hfirst⟩
        rw [List.find?_cons_of_pos]
        simp [hfirst.name]
      · obtain ⟨g, hg, hfollows⟩ := ih hn hs
        refine ⟨g, ?_, hfollows⟩
        rw [List.find?_cons_of_neg]
        · exact hg
        · have hne : f.name ≠ slot.name := by
            rw [hfirst.name]
            rintro heq
            exact hfresh (List.mem_map.mpr ⟨slot, hs, heq.symm⟩)
          simpa using hne

/-- Every field that is found belongs to some slot. -/
private theorem follows_of_find? {fields : List (Field σ)}
    (hf : List.Forall₂ (fun f slot => f.Follows slot least view) fields slots)
    {name : String} {f : Field σ}
    (h : fields.find? (·.name == name) = some f) :
    ∃ slot, f.Follows slot least view := by
  have hmem := List.mem_of_find?_eq_some h
  clear h
  induction hf with
  | nil => exact nomatch hmem
  | @cons g slot fields rest hfirst hrest ih =>
      rcases List.mem_cons.mp hmem with rfl | hmem
      · exact ⟨slot, hfirst⟩
      · exact ih hmem

/-- What one member does to a draft, a changed one does to the view of it. -/
private theorem takes_of_edit (hr : r.Follows slots least view viewResult)
    (hd : least ≤ depth) {m m' : StringLiteral × Tree} {s₁ : σ}
    (hm : MemberEdit slots m m') (hs : view s' = view s)
    (h : r.Takes depth s m s₁) :
    ∃ s₁', r.Takes depth s' m' s₁' ∧ view s₁' = view s₁ := by
  cases hm with
  | same =>
      cases h with
      | fill hk hf he hput =>
          obtain ⟨slot, hfollows⟩ := follows_of_find? hr.fields hf
          rw [← hfollows.filled s s' hs] at he
          exact ⟨_, .fill hk hf he hput, hfollows.puts _ _ _ hput s s' hs⟩
      | pass hk hf hp => exact ⟨s', .pass hk hf hp, hs⟩
  | @value key slot t t' hmem hk hedit =>
      obtain ⟨f, hf, hfollows⟩ := find?_of_mem hr.fields hr.names hmem
      cases h with
      | fill hk' hg he hput =>
          cases hk.symm.trans hk'
          cases hf.symm.trans hg
          obtain ⟨put', hput', hview⟩ :=
            hfollows.edits _ _ _ _ hd hedit hput
          rw [← hfollows.filled s s' hs] at he
          exact ⟨_, .fill hk hf he hput', hview s s' hs⟩
      | pass hk' hg hp =>
          cases hk.symm.trans hk'
          exact nomatch hf.symm.trans hg

private theorem readMembers_of_edit (hr : r.Follows slots least view viewResult)
    (hd : least ≤ depth) {ms ms' : List (StringLiteral × Tree)}
    (hms : List.Forall₂ (MemberEdit slots) ms ms') (hs : view s' = view s)
    (h : r.readMembers depth s ms = .ok d) :
    ∃ d', r.readMembers depth s' ms' = .ok d' ∧ view d' = view d := by
  induction hms generalizing s s' with
  | nil =>
      cases h
      exact ⟨s', rfl, hs⟩
  | cons hm hms ih =>
      obtain ⟨s₁, htakes, h⟩ := readMembers_cons_eq_ok.mp h
      obtain ⟨s₁', htakes', hs₁⟩ := takes_of_edit hr hd hm hs htakes
      obtain ⟨d', hd', hview⟩ := ih hs₁ h
      exact ⟨d', readMembers_cons_eq_ok.mpr ⟨s₁', htakes', hd'⟩, hview⟩

/-- An array may end where all fields that are left may be left out. -/
theorem readElements_nil_eq_ok {index : Nat} {fields : List (Field σ)} :
    r.readElements depth close index s fields [] = .ok d
      ↔ d = s ∧ close = .closed ∧ ∀ f ∈ fields, f.optional = true := by
  induction fields generalizing index with
  | nil =>
      constructor
      · intro h
        obtain ⟨_, hclose, h⟩ := bind_eq_ok h
        cases h
        refine ⟨rfl, ?_, fun f hf => nomatch hf⟩
        cases close <;> first | rfl | exact nomatch hclose
      · rintro ⟨rfl, rfl, -⟩
        rfl
  | cons f rest ih =>
      rw [List.forall_mem_cons]
      constructor
      · intro h
        obtain ⟨_, hclose, h⟩ := bind_eq_ok h
        split at h
        · rename_i hopt
          obtain ⟨hds, hclosed, hall⟩ := ih.mp h
          exact ⟨hds, hclosed, hopt, hall⟩
        · exact nomatch h
      · rintro ⟨hds, rfl, hopt, hall⟩
        rw [readElements, check_listFault_eq_ok.mpr rfl, ok_bind, if_pos hopt]
        exact ih.mpr ⟨hds, rfl, hall⟩

private theorem readElements_of_edit {fields : List (Field σ)}
    {slots : List Slot}
    (hf : List.Forall₂ (fun f slot => f.Follows slot least view) fields slots)
    (hd : least ≤ depth) {ts ts' : List Tree} (hts : ElementsEdit slots ts ts')
    {index : Nat} (hs : view s' = view s)
    (h : r.readElements depth close index s fields ts = .ok d) :
    ∃ d', r.readElements depth close index s' fields ts' = .ok d' ∧
      view d' = view d := by
  -- on the fields, since the elements may end before them
  induction hf generalizing ts ts' index s s' with
  | nil =>
      cases hts
      obtain ⟨_, hclose, h⟩ := bind_eq_ok h
      cases h
      refine ⟨s', ?_, hs⟩
      rw [readElements, hclose]
      rfl
  | @cons f slot fields slots hfirst hrest ih =>
      cases ts with
      | nil =>
          cases hts
          obtain ⟨rfl, hall⟩ := readElements_nil_eq_ok.mp h
          exact ⟨s', readElements_nil_eq_ok.mpr ⟨rfl, hall⟩, hs⟩
      | cons t ts =>
          obtain ⟨put, hput, h⟩ := readElements_cons_eq_ok.mp h
          cases hts with
          | same =>
              obtain ⟨d', hd', hview⟩ := ih (.same _ _)
                (hfirst.puts _ _ _ hput s s' hs) h
              exact ⟨d', readElements_cons_eq_ok.mpr ⟨put, hput, hd'⟩, hview⟩
          | keep _ hr =>
              obtain ⟨d', hd', hview⟩ := ih hr
                (hfirst.puts _ _ _ hput s s' hs) h
              exact ⟨d', readElements_cons_eq_ok.mpr ⟨put, hput, hd'⟩, hview⟩
          | value ht hr =>
              obtain ⟨put', hput', hputs⟩ := hfirst.edits _ _ _ _ hd ht hput
              obtain ⟨d', hd', hview⟩ := ih hr (hputs s s' hs) h
              exact ⟨d', readElements_cons_eq_ok.mpr ⟨put', hput', hd'⟩, hview⟩

/-- Drafts that are seen alike finish alike. -/
private theorem Follows.finish_eq_ok
    (hr : r.Follows slots least view viewResult) {a : α}
    (hs : view s' = view s) (h : r.finish s = .ok a) :
    ∃ a', r.finish s' = .ok a' ∧ viewResult a' = viewResult a := by
  have hview : (r.finish s').map viewResult = .ok (viewResult a) := by
    rw [← hr.finish, hs, hr.finish, h]
    rfl
  cases ha' : r.finish s' with
  | error e =>
      rw [ha'] at hview
      exact nomatch hview
  | ok a' =>
      rw [ha'] at hview
      exact ⟨a', rfl, Except.ok.inj hview⟩

/-- A record respects changes in its fields. -/
theorem Follows.respects (hr : r.Follows slots least view viewResult) :
    Decoder.Respects r.decode (least + 1) (FieldsEdit slots) viewResult := by
  intro depth t t' a hdepth ht ha
  have hd : least ≤ depth - 1 := Nat.le_sub_one_of_lt hdepth
  cases ht with
  | same => exact ⟨a, ha, rfl⟩
  | object hms close =>
      obtain ⟨hlt, rfl, s, hs, ha⟩ := decode_object_eq_ok.mp ha
      obtain ⟨s', hs', hview⟩ := readMembers_of_edit hr hd hms rfl hs
      obtain ⟨a', ha', hresult⟩ := hr.finish_eq_ok hview ha
      exact ⟨a', decode_object_eq_ok.mpr ⟨hlt, rfl, s', hs', ha'⟩, hresult⟩
  | array hts close =>
      obtain ⟨hlt, s, hs, ha⟩ := decode_array_eq_ok.mp ha
      obtain ⟨s', hs', hview⟩ := readElements_of_edit hr.fields hd hts rfl hs
      obtain ⟨a', ha', hresult⟩ := hr.finish_eq_ok hview ha
      exact ⟨a', decode_array_eq_ok.mpr ⟨hlt, s', hs', ha'⟩, hresult⟩

/-- The fields have the names of their slots. -/
theorem Follows.map_name (hr : r.Follows slots least view viewResult) :
    r.fields.map (·.name) = slots.map (·.name) := by
  obtain ⟨-, hf, -⟩ := hr
  generalize r.fields = fields at hf ⊢
  induction hf with
  | nil => rfl
  | cons hfirst hrest ih => rw [List.map_cons, List.map_cons, hfirst.name, ih]

end RecordShape

end RiskExchange.Json
