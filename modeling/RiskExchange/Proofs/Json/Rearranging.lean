import Mathlib.Data.List.Pairwise
import RiskExchange.Proofs.Json.Acceptance

/-! # Rearranging — what is written of a record but means nothing

    The members of an object may stand in any order, there may be others whose
    names are no field's, and an empty list may be left out or be `null`. If the
    fields of a record are kept apart in its draft (`RecordShape.Lawful`), none
    of this changes what is read (`RecordShape.Lawful.respects`). -/

namespace RiskExchange.Json

variable {α σ : Type}

/-! ## Changes -/

/-- The value stands for the empty list. -/
inductive IsNone : Tree → Prop where
  | null : IsNone .null
  | empty : IsNone (.array [] .closed)

/-- A change of a list, or of the way in which the empty list is written. -/
def NullableEdit (edit : Tree → Tree → Prop) (t t' : Tree) : Prop :=
  ItemsEdit edit t t' ∨ (IsNone t ∧ IsNone t')

/-- A record whose fields have the given names is rearranged: members change
    places, a member is added under another name, or a list of which there is
    nothing is left out or put in. -/
inductive Rearranged (names nullable : List String) : Tree → Tree → Prop where
  | permuted {ms ms' : List (StringLiteral × Tree)} (h : ms.Perm ms') :
      Rearranged names nullable (.object ms .closed) (.object ms' .closed)
  | added {before after : List (StringLiteral × Tree)} {key : StringLiteral}
      {name : String} {t : Tree} {text : List Char}
      (hk : key.read = .ok name) (hn : name ∉ names) (ht : Spells t text) :
      Rearranged names nullable (.object (before ++ after) .closed)
        (.object (before ++ (key, t) :: after) .closed)
  | leftOut {before after : List (StringLiteral × Tree)}
      {key : StringLiteral} {name : String} {t : Tree}
      (hk : key.read = .ok name) (hn : name ∈ nullable) (ht : IsNone t) :
      Rearranged names nullable
        (.object (before ++ (key, t) :: after) .closed)
        (.object (before ++ after) .closed)
  | putIn {before after : List (StringLiteral × Tree)}
      {key : StringLiteral} {name : String} {t : Tree}
      (hk : key.read = .ok name) (hn : name ∈ nullable) (ht : IsNone t)
      (habsent : ∀ m ∈ before ++ after, m.1.read ≠ .ok name) :
      Rearranged names nullable (.object (before ++ after) .closed)
        (.object (before ++ (key, t) :: after) .closed)
  | cut {ts : List Tree} {t : Tree} {name : String}
      (hat : names[ts.length]? = some name) (hn : name ∈ nullable)
      (ht : IsNone t) :
      Rearranged names nullable (.array (ts ++ [t]) .closed)
        (.array ts .closed)
  | extended {ts : List Tree} {t : Tree} {name : String}
      (hat : names[ts.length]? = some name) (hn : name ∈ nullable)
      (ht : IsNone t) :
      Rearranged names nullable (.array ts .closed)
        (.array (ts ++ [t]) .closed)

/-- A change in the fields of a record, or of what is around them. -/
def RecordEdit (slots : List Slot) (nullable : List String) (t t' : Tree) :
    Prop :=
  FieldsEdit slots t t' ∨ Rearranged (slots.map (·.name)) nullable t t'

/-! ## Lists -/

/-- A list that stands for nothing is empty. -/
theorem Decoder.listOrNull_of_isNone (d : Decoder α) {depth : Nat} {t : Tree}
    (hdepth : 2 ≤ depth) (ht : IsNone t) : d.listOrNull depth t = .ok [] := by
  cases ht with
  | null => exact d.listOrNull_null depth
  | empty =>
      rw [d.listOrNull_array]
      exact list_array_eq_ok.mpr ⟨hdepth, rfl, rfl⟩

/-- A list does not see how the empty list is written. -/
theorem Decoder.Respects.nullable {β : Type} {d : Decoder (List α)}
    {least : Nat} {edit : Tree → Tree → Prop} {view : List α → β}
    (h : d.Respects least (ItemsEdit edit) view)
    (hnone : ∀ depth t, 2 ≤ depth → IsNone t → d depth t = .ok [])
    (hleast : 2 ≤ least) : d.Respects least (NullableEdit edit) view := by
  intro depth t t' as hdepth ht has
  rcases ht with ht | ⟨ht, ht'⟩
  · exact h depth t t' as hdepth ht has
  · have hd : 2 ≤ depth := Nat.le_trans hleast hdepth
    rw [hnone depth t hd ht] at has
    cases has
    exact ⟨[], hnone depth t' hd ht', rfl⟩

/-! ## Fields that are kept apart -/

/-- Two fields of a draft have nothing to do with each other. -/
structure Field.Apart (f g : Field σ) : Prop where
  left : ∀ depth t put, f.read depth t = .ok put →
    ∀ s, g.filled (put s) = g.filled s
  right : ∀ depth t put, g.read depth t = .ok put →
    ∀ s, f.filled (put s) = f.filled s
  comm : ∀ depth t put depth' t' put', f.read depth t = .ok put →
    g.read depth' t' = .ok put' → ∀ s, put (put' s) = put' (put s)

theorem Field.Apart.symm {f g : Field σ} (h : f.Apart g) : g.Apart f where
  left := h.right
  right := h.left
  comm depth t put depth' t' put' hput hput' s :=
    (h.comm depth' t' put' depth t put hput' hput s).symm

/-- Fields that are kept in different places of a draft. -/
theorem Field.apart_make {β : Type} {name name' : String}
    {optional optional' : Bool} {get : σ → Option α} {set : α → σ → σ}
    {d : Decoder α} {get' : σ → Option β} {set' : β → σ → σ} {d' : Decoder β}
    (hleft : ∀ a s, get' (set a s) = get' s)
    (hright : ∀ b s, get (set' b s) = get s)
    (hcomm : ∀ a b s, set a (set' b s) = set' b (set a s)) :
    (make name optional get set d).Apart
      (make name' optional' get' set' d') where
  left depth t put hput s := by
    obtain ⟨a, -, hput⟩ := bind_eq_ok hput
    cases hput
    exact congrArg Option.isSome (hleft a s)
  right depth t put hput s := by
    obtain ⟨b, -, hput⟩ := bind_eq_ok hput
    cases hput
    exact congrArg Option.isSome (hright b s)
  comm depth t put depth' t' put' hput hput' s := by
    obtain ⟨a, -, hput⟩ := bind_eq_ok hput
    obtain ⟨b, -, hput'⟩ := bind_eq_ok hput'
    cases hput
    cases hput'
    exact hcomm a b s

/-- What is put into the draft fills the field. -/
def Field.Fills (f : Field σ) : Prop :=
  ∀ depth t put, f.read depth t = .ok put → ∀ s, f.filled (put s) = true

theorem Field.fills_make {name : String} {optional : Bool}
    {get : σ → Option α} {set : α → σ → σ} {d : Decoder α}
    (h : ∀ a s, get (set a s) = some a) :
    (make name optional get set d).Fills := by
  intro depth t put hput s
  obtain ⟨a, -, hput⟩ := bind_eq_ok hput
  cases hput
  exact congrArg Option.isSome (h a s)

namespace RecordShape

/-- The field may be left out, and then it is as if nothing had been put into
    it. -/
structure LeavesOut (r : RecordShape σ α) (f : Field σ) : Prop where
  optional : f.optional = true
  finish : ∀ depth t, 2 ≤ depth → IsNone t → ∃ put,
    f.read depth t = .ok put ∧
      ∀ s, f.filled s = false → r.finish (put s) = r.finish s

/-- The fields of a record are kept apart in its draft and are empty at first,
    and those of the given names may be left out. -/
structure Lawful (r : RecordShape σ α) (nullable : List String) : Prop where
  fills : ∀ f ∈ r.fields, f.Fills
  apart : r.fields.Pairwise Field.Apart
  empty : ∀ f ∈ r.fields, f.filled r.empty = false
  names : nullable ⊆ r.fields.map (·.name)
  leavesOut : ∀ f ∈ r.fields, f.name ∈ nullable → r.LeavesOut f

theorem leavesOut_make {β : Type} {r : RecordShape σ α} {name : String}
    {get : σ → Option β} {set : β → σ → σ} {d : Decoder β} {none : β}
    (hd : ∀ depth t, 2 ≤ depth → IsNone t → d depth t = .ok none)
    (hfinish : ∀ s, get s = .none → r.finish (set none s) = r.finish s) :
    r.LeavesOut (.withDefault name get set d) where
  optional := rfl
  finish depth t hdepth ht := by
    refine ⟨set none, ?_, ?_⟩
    · change (d depth t >>= fun v => pure (set v)) = _
      rw [hd depth t hdepth ht]
      rfl
    · intro s hs
      exact hfinish s
        (Option.isNone_iff_eq_none.mp (Option.isSome_eq_false_iff.mp hs))

variable {r : RecordShape σ α} {nullable : List String} {depth : Nat}
  {close : Close}
  {s s₁ s₂ d : σ}
  {ms ms' : List (StringLiteral × Tree)} {f g : Field σ}

theorem Lawful.apart_of_ne (hr : r.Lawful nullable) (hf : f ∈ r.fields)
    (hg : g ∈ r.fields) (hne : f ≠ g) : f.Apart g := by
  have hsymm : Std.Symm (Field.Apart (σ := σ)) := ⟨fun _ _ h => h.symm⟩
  exact hr.apart.forall hf hg hne

/-! ## Members in another order -/

/-- Two members that are read one after the other may change places. -/
theorem Lawful.takes_comm (hr : r.Lawful nullable) {x y : StringLiteral × Tree}
    (hx : r.Takes depth s x s₁) (hy : r.Takes depth s₁ y s₂) :
    ∃ s', r.Takes depth s y s' ∧ r.Takes depth s' x s₂ := by
  cases hx with
  | pass hk hf hp => exact ⟨s₂, hy, .pass hk hf hp⟩
  | @fill _ f put hk hf he hput =>
      cases hy with
      | pass hk' hg hp => exact ⟨s, .pass hk' hg hp, .fill hk hf he hput⟩
      | @fill _ g put' hk' hg he' hput' =>
          have hfmem := List.mem_of_find?_eq_some hf
          have hgmem := List.mem_of_find?_eq_some hg
          -- the second member would find its field filled by the first
          have hne : f ≠ g := by
            rintro rfl
            rw [hr.fills f hfmem _ _ _ hput] at he'
            exact nomatch he'
          have hapart := hr.apart_of_ne hfmem hgmem hne
          rw [hapart.left _ _ _ hput] at he'
          rw [← hapart.right _ _ _ hput' s] at he
          refine ⟨put' s, .fill hk' hg he' hput', ?_⟩
          rw [← hapart.comm _ _ _ _ _ _ hput hput']
          exact .fill hk hf he hput

theorem Lawful.readMembers_perm (hr : r.Lawful nullable) (h : ms.Perm ms')
    (hd : r.readMembers depth s ms = .ok d) :
    r.readMembers depth s ms' = .ok d := by
  induction h generalizing s with
  | nil => exact hd
  | cons m h ih =>
      obtain ⟨s₁, hm, hd⟩ := readMembers_cons_eq_ok.mp hd
      exact readMembers_cons_eq_ok.mpr ⟨s₁, hm, ih hd⟩
  | swap x y ms =>
      obtain ⟨s₁, hy, hd⟩ := readMembers_cons_eq_ok.mp hd
      obtain ⟨s₂, hx, hd⟩ := readMembers_cons_eq_ok.mp hd
      obtain ⟨s', hx', hy'⟩ := hr.takes_comm hy hx
      exact readMembers_cons_eq_ok.mpr
        ⟨s', hx', readMembers_cons_eq_ok.mpr ⟨s₂, hy', hd⟩⟩
  | trans h₁ h₂ ih₁ ih₂ => exact ih₂ (ih₁ hd)

/-! ## Members more or less -/

/-- A member may go to the end. -/
private theorem perm_concat (m : StringLiteral × Tree)
    (before after : List (StringLiteral × Tree)) :
    (before ++ m :: after).Perm ((before ++ after) ++ [m]) :=
  List.perm_middle.trans (List.perm_append_singleton m _).symm

theorem readMembers_concat_eq_ok {m : StringLiteral × Tree} :
    r.readMembers depth s (ms ++ [m]) = .ok d ↔ ∃ s₁,
      r.readMembers depth s ms = .ok s₁ ∧ r.Takes depth s₁ m d := by
  induction ms generalizing s with
  | nil =>
      constructor
      · intro h
        obtain ⟨s₁, hm, h⟩ := readMembers_cons_eq_ok.mp h
        cases h
        exact ⟨s, rfl, hm⟩
      · rintro ⟨s₁, h, hm⟩
        cases h
        exact readMembers_cons_eq_ok.mpr ⟨d, hm, rfl⟩
  | cons n rest ih =>
      constructor
      · intro h
        obtain ⟨s₁, hn, h⟩ := readMembers_cons_eq_ok.mp h
        obtain ⟨s₂, hrest, hm⟩ := ih.mp h
        exact ⟨s₂, readMembers_cons_eq_ok.mpr ⟨s₁, hn, hrest⟩, hm⟩
      · rintro ⟨s₂, h, hm⟩
        obtain ⟨s₁, hn, hrest⟩ := readMembers_cons_eq_ok.mp h
        exact readMembers_cons_eq_ok.mpr ⟨s₁, hn, ih.mpr ⟨s₂, hrest, hm⟩⟩

/-- A field is not filled by members of other names. -/
theorem Lawful.filled_readMembers (hr : r.Lawful nullable) (hf : f ∈ r.fields)
    (hms : ∀ m ∈ ms, m.1.read ≠ .ok f.name)
    (h : r.readMembers depth s ms = .ok d) : f.filled d = f.filled s := by
  induction ms generalizing s with
  | nil =>
      cases h
      rfl
  | cons m rest ih =>
      obtain ⟨hm, hrest⟩ := List.forall_mem_cons.mp hms
      obtain ⟨s₁, htakes, h⟩ := readMembers_cons_eq_ok.mp h
      rw [ih hrest h]
      cases htakes with
      | pass hk hg hp => rfl
      | @fill name g put hk hg he hput =>
          have hne : g ≠ f := by
            rintro rfl
            have hname : g.name = name := by
              simpa using List.find?_some hg
            rw [hname] at hm
            exact hm hk
          have hgmem := List.mem_of_find?_eq_some hg
          exact (hr.apart_of_ne hgmem hf hne).left _ _ _ hput s

/-- A name that is a field's is found. -/
private theorem find?_of_name {name : String}
    (hn : name ∈ r.fields.map (·.name)) :
    ∃ f, r.fields.find? (·.name == name) = some f ∧ f ∈ r.fields ∧
      f.name = name := by
  obtain ⟨g, hg, hname⟩ := List.mem_map.mp hn
  have hsome : (r.fields.find? (·.name == name)).isSome := by
    rw [List.find?_isSome]
    exact ⟨g, hg, by simpa using hname⟩
  obtain ⟨f, hf⟩ := Option.isSome_iff_exists.mp hsome
  refine ⟨f, hf, List.mem_of_find?_eq_some hf, ?_⟩
  simpa using List.find?_some hf

/-! ## Elements more or less -/

/-- The last element of an array fills the field it belongs to, which may as
    well be left out. -/
theorem readElements_concat_eq_ok {fields : List (Field σ)} {ts : List Tree}
    {t : Tree} {put : σ → σ} (hat : fields[ts.length]? = some f)
    (hopt : f.optional = true) (hput : f.read depth t = .ok put)
    {index : Nat} :
    r.readElements depth .closed index s fields (ts ++ [t]) = .ok d ↔
      ∃ s₁, r.readElements depth .closed index s fields ts = .ok s₁ ∧
        d = put s₁ := by
  induction ts generalizing fields s index with
  | nil =>
      cases fields with
      | nil => exact nomatch hat
      | cons g rest =>
          cases hat
          rw [List.nil_append]
          constructor
          · intro h
            obtain ⟨put', hput', h⟩ := readElements_cons_eq_ok.mp h
            cases hput.symm.trans hput'
            obtain ⟨rfl, -, hall⟩ := readElements_nil_eq_ok.mp h
            exact ⟨s, readElements_nil_eq_ok.mpr
              ⟨rfl, rfl, List.forall_mem_cons.mpr ⟨hopt, hall⟩⟩, rfl⟩
          · rintro ⟨s₁, h, rfl⟩
            obtain ⟨rfl, -, hall⟩ := readElements_nil_eq_ok.mp h
            exact readElements_cons_eq_ok.mpr ⟨put, hput,
              readElements_nil_eq_ok.mpr
                ⟨rfl, rfl, (List.forall_mem_cons.mp hall).2⟩⟩
  | cons u us ih =>
      cases fields with
      | nil => exact nomatch hat
      | cons g rest =>
          rw [List.length_cons, List.getElem?_cons_succ] at hat
          constructor
          · intro h
            obtain ⟨put', hput', h⟩ := readElements_cons_eq_ok.mp h
            obtain ⟨s₁, hs₁, rfl⟩ := (ih hat).mp h
            exact ⟨s₁, readElements_cons_eq_ok.mpr ⟨put', hput', hs₁⟩, rfl⟩
          · rintro ⟨s₁, h, rfl⟩
            obtain ⟨put', hput', h⟩ := readElements_cons_eq_ok.mp h
            exact readElements_cons_eq_ok.mpr
              ⟨put', hput', (ih hat).mpr ⟨s₁, h, rfl⟩⟩

/-- A field is not filled by the elements before its own. -/
theorem filled_readElements {fields : List (Field σ)}
    (hapart : fields.Pairwise Field.Apart) {ts : List Tree}
    (hat : fields[ts.length]? = some f) {index : Nat}
    (h : r.readElements depth close index s fields ts = .ok d) :
    f.filled d = f.filled s := by
  induction ts generalizing fields s index with
  | nil =>
      obtain ⟨rfl, -, -⟩ := readElements_nil_eq_ok.mp h
      rfl
  | cons u us ih =>
      cases fields with
      | nil => exact nomatch hat
      | cons g rest =>
          obtain ⟨hg, hrest⟩ := List.pairwise_cons.mp hapart
          rw [List.length_cons, List.getElem?_cons_succ] at hat
          obtain ⟨put, hput, h⟩ := readElements_cons_eq_ok.mp h
          rw [ih hrest hat h]
          exact (hg f (List.mem_of_getElem? hat)).left _ _ _ hput s

/-! ## Records -/

/-- A member that stands for nothing does nothing to the record. -/
private theorem Lawful.finish_member (hr : r.Lawful nullable)
    {key : StringLiteral} {name : String} {t : Tree} (hdepth : 2 ≤ depth)
    (hk : key.read = .ok name) (hn : name ∈ nullable) (ht : IsNone t) :
    ∃ f ∈ r.fields, f.name = name ∧
      (∀ s d, r.Takes depth s (key, t) d → r.finish d = r.finish s) ∧
      ∀ s, f.filled s = false →
        ∃ d, r.Takes depth s (key, t) d ∧ r.finish d = r.finish s := by
  obtain ⟨f, hf, hmem, hname⟩ := find?_of_name (hr.names hn)
  obtain ⟨put, hput, hfinish⟩ :=
    (hr.leavesOut f hmem (hname ▸ hn)).finish depth t hdepth ht
  refine ⟨f, hmem, hname, ?_, ?_⟩
  · intro s d h
    cases h with
    | fill hk' hg he hput' =>
        cases hk.symm.trans hk'
        cases hf.symm.trans hg
        cases hput.symm.trans hput'
        exact hfinish s he
    | pass hk' hg hp => rfl
  · intro s he
    exact ⟨put s, .fill hk hf he hput, hfinish s he⟩

/-- The same for an element, which has no name but a place. -/
private theorem Lawful.finish_element (hr : r.Lawful nullable) {index : Nat}
    {name : String} {t : Tree} (hdepth : 2 ≤ depth)
    (hat : (r.fields.map (·.name))[index]? = some name)
    (hn : name ∈ nullable) (ht : IsNone t) :
    ∃ f ∈ r.fields, r.fields[index]? = some f ∧ f.optional = true ∧
      ∃ put, f.read depth t = .ok put ∧
        ∀ s, f.filled s = false → r.finish (put s) = r.finish s := by
  rw [List.getElem?_map] at hat
  obtain ⟨f, hat, hname⟩ := Option.map_eq_some_iff.mp hat
  have hf := List.mem_of_getElem? hat
  obtain ⟨hopt, hfinish⟩ := hr.leavesOut f hf (hname ▸ hn)
  exact ⟨f, hf, hat, hopt, hfinish depth t hdepth ht⟩

/-- A record does not see how it is arranged. -/
theorem Lawful.decode_rearranged (hr : r.Lawful nullable) {t t' : Tree}
    (ht : Rearranged (r.fields.map (·.name)) nullable t t')
    (hdepth : 3 ≤ depth) {a : α} (ha : r.decode depth t = .ok a) :
    r.decode depth t' = .ok a := by
  have hd : 2 ≤ depth - 1 := by omega
  -- a member that comes or goes is first moved to the end, where it is read
  -- last and nothing depends on it
  cases ht with
  | permuted h =>
      obtain ⟨hlt, -, s, hs, ha⟩ := decode_object_eq_ok.mp ha
      exact decode_object_eq_ok.mpr
        ⟨hlt, rfl, s, hr.readMembers_perm h hs, ha⟩
  | @added before after key name t text hk hn ht =>
      obtain ⟨hlt, -, s, hs, ha⟩ := decode_object_eq_ok.mp ha
      have hnone : r.fields.find? (·.name == name) = none := by
        rw [List.find?_eq_none]
        intro f hf heq
        exact hn (List.mem_map.mpr ⟨f, hf, by simpa using heq⟩)
      have htakes : r.Takes (depth - 1) s (key, t) s :=
        .pass hk hnone (pass_of_spells ht)
      have hlast := readMembers_concat_eq_ok.mpr ⟨s, hs, htakes⟩
      exact decode_object_eq_ok.mpr ⟨hlt, rfl, s,
        hr.readMembers_perm (perm_concat (key, t) before after).symm hlast, ha⟩
  | @leftOut before after key name t hk hn ht =>
      obtain ⟨hlt, -, s, hs, ha⟩ := decode_object_eq_ok.mp ha
      have hlast := hr.readMembers_perm (perm_concat (key, t) before after) hs
      obtain ⟨s₁, hs₁, htakes⟩ := readMembers_concat_eq_ok.mp hlast
      obtain ⟨f, -, -, hfinish, -⟩ := hr.finish_member hd hk hn ht
      rw [hfinish s₁ s htakes] at ha
      exact decode_object_eq_ok.mpr ⟨hlt, rfl, s₁, hs₁, ha⟩
  | @putIn before after key name t hk hn ht habsent =>
      obtain ⟨hlt, -, s, hs, ha⟩ := decode_object_eq_ok.mp ha
      obtain ⟨f, hf, hname, -, hfill⟩ := hr.finish_member hd hk hn ht
      rw [← hname] at habsent
      have he : f.filled s = false := by
        rw [hr.filled_readMembers hf habsent hs, hr.empty f hf]
      obtain ⟨d, htakes, hfinish⟩ := hfill s he
      have hlast := readMembers_concat_eq_ok.mpr ⟨s, hs, htakes⟩
      rw [← hfinish] at ha
      exact decode_object_eq_ok.mpr ⟨hlt, rfl, d,
        hr.readMembers_perm (perm_concat (key, t) before after).symm hlast, ha⟩
  | @cut ts t name hat hn ht =>
      obtain ⟨hlt, s, hs, ha⟩ := decode_array_eq_ok.mp ha
      obtain ⟨f, hf, hat, hopt, put, hput, hfinish⟩ :=
        hr.finish_element hd hat hn ht
      obtain ⟨s₁, hs₁, rfl⟩ :=
        (readElements_concat_eq_ok hat hopt hput).mp hs
      have he : f.filled s₁ = false := by
        rw [filled_readElements hr.apart hat hs₁, hr.empty f hf]
      rw [hfinish s₁ he] at ha
      exact decode_array_eq_ok.mpr ⟨hlt, s₁, hs₁, ha⟩
  | @extended ts t name hat hn ht =>
      obtain ⟨hlt, s, hs, ha⟩ := decode_array_eq_ok.mp ha
      obtain ⟨f, hf, hat, hopt, put, hput, hfinish⟩ :=
        hr.finish_element hd hat hn ht
      have hs' := (readElements_concat_eq_ok hat hopt hput).mpr ⟨s, hs, rfl⟩
      have he : f.filled s = false := by
        rw [filled_readElements hr.apart hat hs, hr.empty f hf]
      rw [← hfinish s he] at ha
      exact decode_array_eq_ok.mpr ⟨hlt, put s, hs', ha⟩

variable {slots : List Slot} {least : Nat} {view : σ → σ}
  {viewResult : α → α}

/-- A record respects changes in its fields and of what is around them. -/
theorem Lawful.respects (hr : r.Lawful nullable)
    (hf : r.Follows slots least view viewResult) (hleast : 2 ≤ least) :
    Decoder.Respects r.decode (least + 1) (RecordEdit slots nullable)
      viewResult := by
  intro depth t t' a hdepth ht ha
  rcases ht with ht | ht
  · exact hf.respects depth t t' a hdepth ht ha
  · rw [← hf.map_name] at ht
    exact ⟨a, hr.decode_rearranged ht (by omega) ha, rfl⟩

end RecordShape

end RiskExchange.Json
