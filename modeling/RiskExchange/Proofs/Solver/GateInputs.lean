import RiskExchange.Proofs.Json.Integers
import RiskExchange.Proofs.Solver.Respelling

/-! # Gate inputs — which values list the inputs of a gate

    The inputs of a gate are written as a list, as a single id, or as something
    that stands for none. An id is a number in range or a string of characters
    (`Denotes`). Inside a list every id counts and `null` is passed over; outside
    a list an integer stands for no inputs (`Lists`). These are all the values
    that are decoded, whichever kind of inputs they give
    (`inputs_decoded_iff`). -/

namespace RiskExchange.Solver

open RiskExchange.Json

variable {depth : Nat} {t : Tree} {ts : List Tree} {id : RawId}
  {ids : List RawId}

/-! ## Values that list inputs -/

/-- The value is an id: a number in range, or a string whose escapes make
    characters. -/
inductive Denotes : Tree → RawId → Prop where
  | number {l : NumberLiteral} {n : Json.Number}
      (h : Number.ofLiteral l = some n) : Denotes (.number l) (.number n)
  | string {l : StringLiteral} {s : String} (h : l.read = .ok s) :
      Denotes (.string l) (.text s)

/-- The elements of a list are ids or `null`, and these are the ids, in
    order. -/
inductive ListsItems : List Tree → List RawId → Prop where
  | nothing : ListsItems [] []
  | null {ts : List Tree} {ids : List RawId} (h : ListsItems ts ids) :
      ListsItems (.null :: ts) ids
  | id {t : Tree} {id : RawId} {ts : List Tree} {ids : List RawId}
      (ht : Denotes t id) (h : ListsItems ts ids) :
      ListsItems (t :: ts) (id :: ids)

/-- The value lists these inputs. -/
inductive Lists : Tree → List RawId → Prop where
  | null : Lists .null []
  | integer {t : Tree} {id : RawId} (h : Denotes t id)
      (hi : id.isInteger = true) : Lists t []
  | single {t : Tree} {id : RawId} (h : Denotes t id)
      (hi : id.isInteger = false) : Lists t [id]
  | list {ts : List Tree} {ids : List RawId} (h : ListsItems ts ids) :
      Lists (.array ts .closed) ids

/-- The value is neither a list nor an object nor a boolean. -/
def IsScalar : Tree → Prop
  | .null | .number _ | .string _ => True
  | _ => False

theorem Denotes.isScalar (h : Denotes t id) : IsScalar t := by
  cases h <;> trivial

/-- The value is `null`. -/
def isNull : Tree → Bool
  | .null => true
  | _ => false

theorem ListsItems.isScalar (h : ListsItems ts ids) :
    ∀ t ∈ ts, IsScalar t := by
  induction h with
  | nothing => exact fun _ ht => nomatch ht
  | null _ ih => exact List.forall_mem_cons.mpr ⟨trivial, ih⟩
  | id ht _ ih => exact List.forall_mem_cons.mpr ⟨ht.isScalar, ih⟩

/-- A list gives as many inputs as it has elements that are not `null`. -/
theorem ListsItems.length_eq (h : ListsItems ts ids) :
    ids.length = (ts.filter (!isNull ·)).length := by
  induction h with
  | nothing => rfl
  | null _ ih => exact ih
  | id ht _ ih =>
      cases ht <;> exact congrArg Nat.succ ih

/-- Lists are not nested, and hold no objects and no booleans. -/
theorem Lists.isFlat (h : Lists t ids) :
    IsScalar t ∨ ∃ ts, t = .array ts .closed ∧ ∀ e ∈ ts, IsScalar e := by
  cases h with
  | null => exact .inl trivial
  | integer h _ => exact .inl h.isScalar
  | single h _ => exact .inl h.isScalar
  | list h => exact .inr ⟨_, rfl, h.isScalar⟩

/-! ## Decoding -/

/-- An id is denoted exactly where one is read. -/
theorem denotes_iff : Denotes t id ↔
    ∃ v, t.read depth = .ok v ∧ RawId.ofJson? v = some id := by
  constructor
  · intro h
    cases h with
    | @number l n h =>
        refine ⟨.number n, ?_, rfl⟩
        rw [Tree.read, NumberLiteral.read_eq_ok_iff.mpr h]
        rfl
    | @string l s h =>
        refine ⟨.string s, ?_, rfl⟩
        rw [Tree.read, h]
        rfl
  · rintro ⟨v, hv, hid⟩
    cases t with
    | null | bool =>
        cases hv
        cases hid
    | number l =>
        obtain ⟨n, hn, hv⟩ := bind_eq_ok hv
        cases hv
        cases hid
        exact .number (NumberLiteral.read_eq_ok_iff.mp hn)
    | string l =>
        obtain ⟨s, hs, hv⟩ := bind_eq_ok hv
        cases hv
        cases hid
        exact .string hs
    | array ts close =>
        obtain ⟨-, -, vs, -, rfl⟩ := read_array_eq_ok hv
        cases hid
    | object ms close =>
        obtain ⟨-, -, vs, -, rfl⟩ := read_object_eq_ok hv
        cases hid
    | broken b => cases hv

theorem listsItems_iff : ListsItems ts ids ↔
    ∃ vs, readItems depth ts = .ok vs ∧ listedIds? vs = some ids := by
  constructor
  · intro h
    induction h with
    | nothing => exact ⟨[], rfl, rfl⟩
    | @null ts ids _ ih =>
        obtain ⟨vs, hvs, hids⟩ := ih
        refine ⟨.null :: vs, ?_, hids⟩
        rw [readItems, Tree.read, ok_bind, hvs]
        rfl
    | @id t id ts ids ht _ ih =>
        obtain ⟨v, hv, hid⟩ :
            ∃ v, t.read depth = .ok v ∧ RawId.ofJson? v = some id :=
          denotes_iff.mp ht
        obtain ⟨vs, hvs, hids⟩ := ih
        have hnull : v ≠ .null := by
          rintro rfl
          cases hid
        refine ⟨v :: vs, ?_, ?_⟩
        · rw [readItems, hv, ok_bind, hvs]
          rfl
        · rw [listedIds?_cons hnull, hid, hids]
          rfl
  · rintro ⟨vs, hvs, hids⟩
    induction ts generalizing vs ids with
    | nil =>
        cases hvs
        cases hids
        exact .nothing
    | cons t rest ih =>
        obtain ⟨v, hv, hvs⟩ := bind_eq_ok hvs
        obtain ⟨ws, hws, hvs⟩ := bind_eq_ok hvs
        cases hvs
        -- only null is read as null, and it is passed over
        by_cases hnull : v = .null
        · subst hnull
          obtain rfl := eq_null_of_read hv
          exact .null (ih ws hws hids)
        · rw [listedIds?_cons hnull] at hids
          obtain ⟨id, hid, hids⟩ := Option.bind_eq_some_iff.mp hids
          obtain ⟨more, hmore, rfl⟩ := Option.map_eq_some_iff.mp hids
          exact .id (denotes_iff.mpr ⟨v, hv, hid⟩) (ih ws hws hmore)

/-- What is decoded is what is listed. -/
theorem lists_iff (hd : 1 < depth) :
    Lists t ids ↔ inputs depth t = .ok ids := by
  rw [inputs_eq_ok]
  -- a value that is no list is looked at as an id
  have hsingle {v : Value} (hnull : v ≠ .null)
      (hlist : ∀ vs, v ≠ .array vs) : inputsOfJson? v =
        (RawId.ofJson? v).map fun id => if id.isInteger then [] else [id] := by
    rw [inputsOfJson?]
    · cases RawId.ofJson? v <;> rfl
    · exact hnull
    · exact hlist
  have hid {id : RawId} (h : Denotes t id) : ∃ v, t.read depth = .ok v ∧
      inputsOfJson? v = some (if id.isInteger then [] else [id]) := by
    obtain ⟨v, hv, hid⟩ :
        ∃ v, t.read depth = .ok v ∧ RawId.ofJson? v = some id :=
      denotes_iff.mp h
    refine ⟨v, hv, ?_⟩
    rw [hsingle, hid]
    · rfl
    · rintro rfl
      exact nomatch hid
    · rintro vs rfl
      exact nomatch hid
  constructor
  · intro h
    cases h with
    | null => exact ⟨.null, rfl, rfl⟩
    | integer h hi => simpa [hi] using hid h
    | single h hi => simpa [hi] using hid h
    | list h =>
        obtain ⟨vs, hvs, hids⟩ := listsItems_iff.mp h
        exact ⟨.array vs, read_array hd hvs, hids⟩
  · rintro ⟨v, hv, hids⟩
    by_cases hnull : v = .null
    · subst hnull
      obtain rfl := eq_null_of_read hv
      cases hids
      exact .null
    · by_cases hlist : ∃ vs, v = .array vs
      · obtain ⟨vs, rfl⟩ := hlist
        obtain ⟨ts, rfl, -, hvs⟩ := read_eq_array hv
        exact .list (listsItems_iff.mpr ⟨vs, hvs, hids⟩)
      · rw [hsingle hnull fun vs hvs => hlist ⟨vs, hvs⟩] at hids
        obtain ⟨id, hid, rfl⟩ := Option.map_eq_some_iff.mp hids
        have hdenotes : Denotes t id := denotes_iff.mpr ⟨v, hv, hid⟩
        cases hi : id.isInteger with
        | true => exact .integer hdenotes hi
        | false => exact .single hdenotes hi

/-- How many inputs a value lists: the elements of a list that are not `null`,
    and otherwise one, unless the value is read as an integer or is `null`. -/
def countListed : Tree → Nat
  | .array ts _ => (ts.filter (!isNull ·)).length
  | .number l =>
    match Number.ofLiteral l with
    | some n => if (RawId.number n).isInteger then 0 else 1
    | none => 0
  | .string _ => 1
  | _ => 0

theorem Lists.length_eq (h : Lists t ids) : ids.length = countListed t := by
  cases h with
  | null => rfl
  | integer h hi =>
      cases h with
      | number h => simp [countListed, h, hi]
      | string h => exact nomatch hi
  | single h hi =>
      cases h with
      | number h => simp [countListed, h, hi]
      | string h => rfl
  | list h => exact h.length_eq

/-- The three kinds of inputs of a gate, by their names, and where they are
    kept while a gate is read. -/
def inputKinds : List (String × (List RawId → GateDraft → GateDraft)) := [
  ("gateinput", fun ids d => { d with gates := some ids }),
  ("eventinput", fun ids d => { d with events := some ids }),
  ("compeventinput", fun ids d => { d with complements := some ids })]

theorem field_of_inputKind {kind : String × (List RawId → GateDraft → GateDraft)}
    (h : kind ∈ inputKinds) : ∃ f ∈ gateShape.fields, f.name = kind.1 ∧
      ∀ depth t put, 1 < depth → (f.read depth t = .ok put ↔
        ∃ ids, Lists t ids ∧ put = kind.2 ids) := by
  have hread (depth : Nat) (t : Tree) (set : List RawId → GateDraft → GateDraft)
      (put : GateDraft → GateDraft) (hd : 1 < depth) :
      (inputs depth t >>= fun ids => Except.ok (set ids)) = .ok put ↔
        ∃ ids, Lists t ids ∧ put = set ids := by
    constructor
    · intro hput
      obtain ⟨ids, hids, hput⟩ := bind_eq_ok hput
      exact ⟨ids, (lists_iff hd).mpr hids, (Except.ok.inj hput).symm⟩
    · rintro ⟨ids, hids, rfl⟩
      rw [(lists_iff hd).mp hids]
      rfl
  simp only [inputKinds, List.mem_cons, List.not_mem_nil, or_false] at h
  rcases h with rfl | rfl | rfl
  · exact ⟨_, .tail _ (.tail _ (.head _)), rfl,
      fun depth t put hd => hread depth t _ put hd⟩
  · exact ⟨_, .tail _ (.tail _ (.tail _ (.head _))), rfl,
      fun depth t put hd => hread depth t _ put hd⟩
  · exact ⟨_, .tail _ (.tail _ (.tail _ (.tail _ (.head _)))), rfl,
      fun depth t put hd => hread depth t _ put hd⟩

/-- Inputs are decoded from a JSON text if and only if the text lists them, and
    each of the three kinds of inputs of a gate is read that way. What is read
    as an integer are the integers of 64 bits. A list gives as many inputs as it
    has elements that are not `null`, any other value one at most. Objects and
    booleans are accepted nowhere, and lists not inside a list. -/
theorem inputs_decoded_iff :
    (∀ (s : List Char) (ids : List RawId),
      (Document.read (asGlyphs s)).decode inputs = .ok ids ↔
        ∃ t, IsJson t s ∧ Lists t ids) ∧
    (∀ kind ∈ inputKinds, ∃ f ∈ gateShape.fields, f.name = kind.1 ∧
      ∀ depth t put, 1 < depth → (f.read depth t = .ok put ↔
        ∃ ids, Lists t ids ∧ put = kind.2 ids)) ∧
    (∀ (l : NumberLiteral) (n : Json.Number), l.WellSpelled →
      Number.ofLiteral l = some n →
        ((RawId.number n).isInteger = true ↔ l.IsInteger ∧ l.InWord)) ∧
    ∀ t ids, Lists t ids → ids.length = countListed t ∧
      (IsScalar t ∨ ∃ ts, t = .array ts .closed ∧ ∀ e ∈ ts, IsScalar e) := by
  have hdepth : 1 < depthLimit := by decide
  refine ⟨?text, fun _ => field_of_inputKind, ?integers,
    fun t ids h => ⟨h.length_eq, h.isFlat⟩⟩
  case text =>
    intro s ids
    constructor
    · intro h
      obtain ⟨t, hjson, hids⟩ := isJson_of_decode inputs_passes h
      exact ⟨t, hjson, (lists_iff hdepth).mpr hids⟩
    · rintro ⟨t, hjson, hids⟩
      rw [decode_of_isJson hjson]
      exact (lists_iff hdepth).mp hids
  case integers => exact fun l n hl hn => hl.isInteger_iff hn

/-- Half of a surrogate pair is a string of JSON, but there is no string of
    characters that it could stand for. -/
theorem half_pair_refused :
    IsJson (.string ⟨[.unit 0xD800], .closed⟩) "\"\\ud800\"".toList ∧
      ∀ ids, (Document.read (asGlyphs "\"\\ud800\"".toList)).decode inputs
        ≠ .ok ids := by
  constructor
  · exact isJson_iff_pass.mpr ⟨rfl, rfl⟩
  · intro ids h
    have hfault : (Document.read (asGlyphs "\"\\ud800\"".toList)).decode
        inputs = .error (.fault .surrogateCutShort) := by decide +kernel
    rw [hfault] at h
    exact nomatch h

end RiskExchange.Solver
