import RiskExchange.Proofs.Json.Recognition
import RiskExchange.Proofs.Json.Records

/-! # Acceptance — what is decoded is JSON

    A decoder that accepts a tree has read all of it, or has passed over what it
    has not read (`Decoder.Passes`). So a text from which something is decoded
    is JSON (`isJson_of_decode`). -/

namespace RiskExchange.Json

variable {α σ : Type} {depth : Nat} {t : Tree} {v : Value} {close : Close}

/-! ## Values -/

/-- Whether a string has its closing quote is seen only after all pieces. -/
theorem ending_of_readPieces {ending : StringEnd} {clean : Bool}
    {pieces : List Piece} {cs : List Char}
    (h : readPieces ending clean pieces = .ok cs) : ending = .closed := by
  -- the ending is looked at where no pieces are left; a fault comes before
  fun_induction readPieces ending clean pieces generalizing cs with
  | case1 | case3 | case7 | case9 | case10 | case11 => exact nomatch h
  | case2 hfault => cases ending <;> first | rfl | exact nomatch hfault
  | case6 _ _ _ ih => exact ih h
  | case4 _ _ _ ih | case5 _ _ _ ih =>
      obtain ⟨cs, hcs, -⟩ := bind_eq_ok h
      exact ih hcs
  | case8 _ _ _ _ _ _ _ ih =>
      obtain ⟨cs, hcs, -⟩ := bind_eq_ok h
      exact ih hcs
  | case12 _ _ _ _ _ ih =>
      obtain ⟨cs, hcs, -⟩ := bind_eq_ok h
      exact ih hcs

theorem string_pass_of_read {l : StringLiteral} {s : String}
    (h : l.read = .ok s) : l.pass = .ok () := by
  obtain ⟨cs, hcs, -⟩ := bind_eq_ok h
  exact string_pass_eq_ok.mpr (ending_of_readPieces hcs)

private theorem items_of_readItems {ts : List Tree} {vs : List Value}
    (h : readItems depth ts = .ok vs) :
    ∀ t ∈ ts, ∃ v, t.read depth = .ok v := by
  induction ts generalizing vs with
  | nil => exact fun _ h => nomatch h
  | cons t rest ih =>
      obtain ⟨v, hv, h⟩ := bind_eq_ok h
      obtain ⟨ws, hws, -⟩ := bind_eq_ok h
      exact List.forall_mem_cons.mpr ⟨⟨v, hv⟩, ih hws⟩

private theorem members_of_readMembers {ms : List (StringLiteral × Tree)}
    {done vs : List (String × Value)} (h : readMembers depth done ms = .ok vs) :
    ∀ m ∈ ms, m.1.pass = .ok () ∧ ∃ v, m.2.read depth = .ok v := by
  induction ms generalizing done with
  | nil => exact fun _ h => nomatch h
  | cons m rest ih =>
      obtain ⟨key, t⟩ := m
      rw [readMembers] at h
      obtain ⟨w, hm, h⟩ := bind_eq_ok h
      obtain ⟨name, hname, hm⟩ := bind_eq_ok hm
      obtain ⟨v, hv, -⟩ := bind_eq_ok hm
      exact List.forall_mem_cons.mpr
        ⟨⟨string_pass_of_read hname, v, hv⟩, ih h⟩

/-- A value that is read can be passed over. -/
theorem pass_of_read (h : t.read depth = .ok v) : t.pass = .ok () := by
  induction t using Tree.induction generalizing depth v with
  | null | bool | number => rfl
  | string l =>
      obtain ⟨s, hs, -⟩ := bind_eq_ok h
      exact string_pass_of_read hs
  | array ts close ih =>
      obtain ⟨-, hclose, vs, hvs, -⟩ := read_array_eq_ok h
      refine array_pass_eq_ok.mpr ⟨?_, hclose⟩
      intro t ht
      obtain ⟨v, hv⟩ := items_of_readItems hvs t ht
      exact ih t ht hv
  | object ms close ih =>
      obtain ⟨-, hclose, vs, hvs, -⟩ := read_object_eq_ok h
      refine object_pass_eq_ok.mpr ⟨?_, hclose⟩
      intro m hm
      obtain ⟨hkey, v, hv⟩ := members_of_readMembers hvs m hm
      exact ⟨hkey, ih m hm hv⟩
  | broken b => exact nomatch h

/-- Only `null` is read as `null`. -/
theorem eq_null_of_read (h : t.read depth = .ok .null) : t = .null := by
  cases t with
  | null => rfl
  | number l =>
      obtain ⟨n, -, h⟩ := bind_eq_ok h
      exact nomatch h
  | string l =>
      obtain ⟨s, -, h⟩ := bind_eq_ok h
      exact nomatch h
  | array ts close =>
      obtain ⟨-, -, vs, -, h⟩ := read_array_eq_ok h
      exact nomatch h
  | object ms close =>
      obtain ⟨-, -, vs, -, h⟩ := read_object_eq_ok h
      exact nomatch h
  | bool | broken => exact nomatch h

/-- Only a string literal is read as a string. -/
theorem read_eq_string {s : String} (h : t.read depth = .ok (.string s)) :
    ∃ l, t = .string l ∧ l.read = .ok s := by
  cases t with
  | string l =>
      obtain ⟨r, hr, h⟩ := bind_eq_ok h
      cases h
      exact ⟨l, rfl, hr⟩
  | number l =>
      obtain ⟨n, -, h⟩ := bind_eq_ok h
      exact nomatch h
  | array ts close =>
      obtain ⟨-, -, vs, -, h⟩ := read_array_eq_ok h
      exact nomatch h
  | object ms close =>
      obtain ⟨-, -, vs, -, h⟩ := read_object_eq_ok h
      exact nomatch h
  | null | bool | broken => exact nomatch h

/-- Only a number literal is read as a number. -/
theorem read_eq_number {n : Number} (h : t.read depth = .ok (.number n)) :
    ∃ l, t = .number l ∧ l.read = .ok n := by
  cases t with
  | number l =>
      obtain ⟨m, hm, h⟩ := bind_eq_ok h
      cases h
      exact ⟨l, rfl, hm⟩
  | string l =>
      obtain ⟨s, -, h⟩ := bind_eq_ok h
      exact nomatch h
  | array ts close =>
      obtain ⟨-, -, vs, -, h⟩ := read_array_eq_ok h
      exact nomatch h
  | object ms close =>
      obtain ⟨-, -, vs, -, h⟩ := read_object_eq_ok h
      exact nomatch h
  | null | bool | broken => exact nomatch h

/-- Only an array with its bracket is read as an array. -/
theorem read_eq_array {vs : List Value} (h : t.read depth = .ok (.array vs)) :
    ∃ ts, t = .array ts .closed ∧ 1 < depth ∧
      readItems (depth - 1) ts = .ok vs := by
  cases t with
  | array ts close =>
      obtain ⟨hd, rfl, ws, hws, h⟩ := read_array_eq_ok h
      cases h
      exact ⟨ts, rfl, hd, hws⟩
  | number l =>
      obtain ⟨n, -, h⟩ := bind_eq_ok h
      exact nomatch h
  | string l =>
      obtain ⟨r, -, h⟩ := bind_eq_ok h
      exact nomatch h
  | object ms close =>
      obtain ⟨-, -, vs, -, h⟩ := read_object_eq_ok h
      exact nomatch h
  | null | bool | broken => exact nomatch h

/-! ## Decoders -/

/-- What is accepted can be passed over. -/
def Decoder.Passes (d : Decoder α) : Prop :=
  ∀ ⦃depth t a⦄, d depth t = .ok a → t.pass = .ok ()

theorem Decoder.value_passes : Decoder.value.Passes :=
  fun _ _ _ h => pass_of_read (liftFault_eq_ok.mp h)

theorem Decoder.judged_passes (judge : Value → Except Mismatch α) :
    (Decoder.judged judge).Passes := by
  intro depth t a h
  obtain ⟨v, hv, -⟩ := bind_eq_ok h
  exact Decoder.value_passes hv

private theorem wrongKind_not_ok {expected : String} {a : α} :
    wrongKind expected t ≠ .ok a := by
  intro h
  cases t with
  | number l =>
      obtain ⟨_, -, h⟩ := bind_eq_ok h
      exact nomatch h
  | string l =>
      obtain ⟨_, -, h⟩ := bind_eq_ok h
      exact nomatch h
  | _ => exact nomatch h

/-- The string decoder accepts strings and nothing else. -/
theorem Decoder.string_eq_ok {s : String} :
    Decoder.string depth t = .ok s ↔ t.read depth = .ok (.string s) := by
  constructor
  · intro h
    cases t with
    | string l =>
        rw [Tree.read, liftFault_eq_ok.mp h]
        rfl
    | _ =>
        unfold Decoder.string at h
        exact absurd h wrongKind_not_ok
  · intro h
    obtain ⟨l, rfl, hl⟩ := read_eq_string h
    exact liftFault_eq_ok.mpr hl

theorem Decoder.string_passes : Decoder.string.Passes :=
  fun _ _ _ h => pass_of_read (string_eq_ok.mp h)

theorem Decoder.Passes.items {d : Decoder α} (hd : d.Passes) {ts : List Tree}
    {as : List α} (h : items d depth ts = .ok as) :
    ∀ t ∈ ts, t.pass = .ok () := by
  induction ts generalizing as with
  | nil => exact fun _ h => nomatch h
  | cons t rest ih =>
      obtain ⟨a, as, ha, has, -⟩ := items_cons_eq_ok.mp h
      exact List.forall_mem_cons.mpr ⟨hd ha, ih has⟩

theorem Decoder.Passes.listOrNull {d : Decoder α} (hd : d.Passes) :
    d.listOrNull.Passes := by
  intro depth t as h
  cases t with
  | null => rfl
  | array ts close =>
      rw [listOrNull_array] at h
      obtain ⟨-, has, hclose⟩ := list_array_eq_ok.mp h
      exact array_pass_eq_ok.mpr ⟨hd.items has, hclose⟩
  | _ =>
      obtain ⟨o, ho, -⟩ := bind_eq_ok h
      obtain ⟨as, has, -⟩ := bind_eq_ok ho
      unfold Decoder.list at has
      exact absurd has wrongKind_not_ok

/-- The list decoder accepts arrays of what its element decoder accepts. -/
theorem Decoder.list_eq_ok {d : Decoder α} {as : List α} :
    d.list depth t = .ok as ↔ ∃ ts, t = .array ts .closed ∧ 1 < depth ∧
      items d (depth - 1) ts = .ok as := by
  constructor
  · intro h
    cases t with
    | array ts close =>
        obtain ⟨hd, has, rfl⟩ := list_array_eq_ok.mp h
        exact ⟨ts, rfl, hd, has⟩
    | _ =>
        unfold Decoder.list at h
        exact absurd h wrongKind_not_ok
  · rintro ⟨ts, rfl, hd, has⟩
    exact list_array_eq_ok.mpr ⟨hd, has, rfl⟩

/-- The elements of a list are read one by one. -/
theorem Decoder.items_eq_ok {d : Decoder α} {ts : List Tree} {as : List α} :
    items d depth ts = .ok as ↔
      List.Forall₂ (fun t a => d depth t = .ok a) ts as := by
  induction ts generalizing as with
  | nil =>
      constructor
      · rintro ⟨⟩
        exact .nil
      · rintro ⟨⟩
        rfl
  | cons t rest ih =>
      rw [items_cons_eq_ok, List.forall₂_cons_left_iff]
      simp only [ih]

/-- An array, or `null` in its place. -/
theorem Decoder.listOrNull_eq_ok {d : Decoder α} {as : List α} :
    d.listOrNull depth t = .ok as ↔
      (t = .null ∧ as = []) ∨ d.list depth t = .ok as := by
  by_cases hnull : t = .null
  · subst hnull
    rw [listOrNull_null]
    constructor
    · rintro ⟨⟩
      exact .inl ⟨rfl, rfl⟩
    · rintro (⟨-, rfl⟩ | h)
      · rfl
      · exact nomatch h
  · have hlist : d.listOrNull depth t = d.list depth t := by
      rw [listOrNull, nullable]
      · cases d.list depth t <;> rfl
      · exact hnull
    rw [hlist]
    exact ⟨.inr, fun h => h.resolve_left fun h => hnull h.1⟩

/-! ## Records -/

/-- What a field accepts can be passed over. -/
def Field.Passes (f : Field σ) : Prop :=
  ∀ ⦃depth t put⦄, f.read depth t = .ok put → t.pass = .ok ()

theorem Field.passes_make {name : String} {optional : Bool}
    {get : σ → Option α} {set : α → σ → σ} {d : Decoder α} (hd : d.Passes) :
    (make name optional get set d).Passes := by
  intro depth t put h
  obtain ⟨a, ha, -⟩ := bind_eq_ok h
  exact hd ha

namespace RecordShape

variable {r : RecordShape σ α} {s s' : σ}

private theorem members_of_readMembers
    (hr : ∀ f ∈ r.fields, f.Passes) {ms : List (StringLiteral × Tree)}
    (h : r.readMembers depth s ms = .ok s') :
    ∀ m ∈ ms, m.1.pass = .ok () ∧ m.2.pass = .ok () := by
  induction ms generalizing s with
  | nil => exact fun _ h => nomatch h
  | cons m rest ih =>
      obtain ⟨s₁, hm, h⟩ := readMembers_cons_eq_ok.mp h
      refine List.forall_mem_cons.mpr ⟨?_, ih h⟩
      cases hm with
      | fill hk hf he hput =>
          exact ⟨string_pass_of_read hk,
            hr _ (List.mem_of_find?_eq_some hf) hput⟩
      | pass hk hf hp => exact ⟨string_pass_of_read hk, hp⟩

private theorem elements_of_readElements {fields : List (Field σ)}
    (hf : ∀ f ∈ fields, f.Passes) {ts : List Tree} {index : Nat}
    (h : r.readElements depth close index s fields ts = .ok s') :
    (∀ t ∈ ts, t.pass = .ok ()) ∧ close = .closed := by
  induction ts generalizing fields s index with
  | nil =>
      obtain ⟨-, hclose, -⟩ := readElements_nil_eq_ok.mp h
      exact ⟨fun _ h => (nomatch h), hclose⟩
  | cons t rest ih =>
      cases fields with
      | nil =>
          obtain ⟨_, hclose, -⟩ := bind_eq_ok h
          exact nomatch hclose
      | cons f fields =>
          obtain ⟨hfirst, hfields⟩ := List.forall_mem_cons.mp hf
          obtain ⟨put, hput, h⟩ := readElements_cons_eq_ok.mp h
          obtain ⟨hrest, hclose⟩ := ih hfields h
          exact ⟨List.forall_mem_cons.mpr ⟨hfirst hput, hrest⟩, hclose⟩

/-- A record passes over what it accepts if all its fields do. -/
theorem decode_passes (hr : ∀ f ∈ r.fields, f.Passes) :
    Decoder.Passes r.decode := by
  intro depth t a h
  cases t with
  | object ms close =>
      obtain ⟨-, hclose, s, hs, -⟩ := decode_object_eq_ok.mp h
      exact object_pass_eq_ok.mpr ⟨members_of_readMembers hr hs, hclose⟩
  | array ts close =>
      obtain ⟨-, s, hs, -⟩ := decode_array_eq_ok.mp h
      exact array_pass_eq_ok.mpr (elements_of_readElements hr hs)
  | _ =>
      unfold decode at h
      exact absurd h wrongKind_not_ok

end RecordShape

/-! ## Texts -/

/-- A text from which something is decoded is JSON. -/
theorem isJson_of_decode {d : Decoder α} (hd : d.Passes) {s : List Char}
    {a : α} (h : (Document.read (asGlyphs s)).decode d = .ok a) :
    ∃ t, IsJson t s ∧ d depthLimit t = .ok a := by
  generalize hread : Document.read (asGlyphs s) = doc at h
  obtain ⟨t, trailing⟩ := doc
  obtain ⟨b, hb, h⟩ := bind_eq_ok h
  cases trailing with
  | true => exact nomatch h
  | false =>
      cases h
      exact ⟨t, isJson_iff_pass.mpr ⟨hread, hd hb⟩, hb⟩

/-- What is decoded from a JSON text is decoded from its tree. -/
theorem decode_of_isJson {s : List Char} (h : IsJson t s) (d : Decoder α) :
    (Document.read (asGlyphs s)).decode d = d depthLimit t := by
  rw [read_of_isJson h, Document.decode]
  cases d depthLimit t <;> rfl

/-- What is decoded from a text is what is decoded from the tree of which the
    text is a spelling. -/
theorem decode_eq_ok_iff {d : Decoder α} (hd : d.Passes) {s : List Char}
    {a : α} : (Document.read (asGlyphs s)).decode d = .ok a ↔
      ∃ t, IsJson t s ∧ d depthLimit t = .ok a := by
  constructor
  · exact isJson_of_decode hd
  · rintro ⟨t, ht, ha⟩
    rw [decode_of_isJson ht, ha]

end RiskExchange.Json
