import Mathlib.Data.List.Forall2
import RiskExchange.Proofs.Json.Datum

/-! # Respelling — what reading and printing make of a datum

    Reading inserts the members of an object in turn, so of several members of
    one name the last one counts (`lookupMember_insertAll`). What is read and
    printed again has the same datum, but each numeral is `respelled`, as long
    as no object repeats a name (`datum_of_read`). An integer in 64 bits is the
    same number afterwards; any other numeral is rounded. -/

namespace RiskExchange.Json

/-! ## Members that are read one after the other -/

/-- The members with others inserted in turn. -/
def insertAll (ws done : List (String × Value)) : List (String × Value) :=
  ws.foldl (fun done w => insertMember w.1 w.2 done) done

/-- New names go to the end in their order. -/
theorem insertAll_of_nodup {ws done : List (String × Value)}
    (h : (names done ++ names ws).Nodup) : insertAll ws done = done ++ ws := by
  induction ws generalizing done with
  | nil => exact (List.append_nil done).symm
  | cons w rest ih =>
      have hnew : w.1 ∉ names done := by
        intro hmem
        exact (List.nodup_append.mp h).2.2 w.1 hmem w.1
          (List.mem_cons_self ..) rfl
      have hrest : (names (done ++ [w]) ++ names rest).Nodup := by
        rw [names, List.map_append, List.append_assoc]
        exact h
      change insertAll rest (insertMember w.1 w.2 done) = _
      rw [insertMember_of_not_mem w.2 hnew, ih hrest, List.append_assoc]
      rfl

theorem insertAll_nil_of_nodup {ws : List (String × Value)}
    (h : (names ws).Nodup) : insertAll ws [] = ws := insertAll_of_nodup h

/-- The last one of the members that have been inserted under a name is looked
    up. -/
theorem lookupMember_insertAll (name : String)
    (ws done : List (String × Value)) :
    lookupMember name (insertAll ws done)
      = (ws.reverse.lookup name).or (lookupMember name done) := by
  induction ws generalizing done with
  | nil => rfl
  | cons w rest ih =>
      change lookupMember name (insertAll rest (insertMember w.1 w.2 done)) = _
      rw [ih, lookupMember_insertMember, List.reverse_cons,
        List.lookup_append, Option.or_assoc]
      by_cases hname : name = w.1
      · rw [if_pos hname, hname, List.lookup_cons_self]
        rfl
      · rw [if_neg hname, List.lookup_cons, beq_false_of_ne hname]
        rfl

/-- What is read of members is inserted in turn. -/
private theorem readMembers_eq_ok {depth : Nat}
    {members : List (StringLiteral × Tree)} {done vs : List (String × Value)}
    (h : readMembers depth done members = .ok vs) :
    ∃ ws, vs = insertAll ws done ∧ List.Forall₂ (fun m w =>
      m.1.read = .ok w.1 ∧ m.2.read depth = .ok w.2) members ws := by
  induction members generalizing done with
  | nil =>
      cases h
      exact ⟨[], rfl, .nil⟩
  | cons m rest ih =>
      obtain ⟨key, t⟩ := m
      rw [readMembers] at h
      obtain ⟨w, hm, h⟩ := bind_eq_ok h
      obtain ⟨name, hname, hm⟩ := bind_eq_ok hm
      obtain ⟨v, hv, hm⟩ := bind_eq_ok hm
      cases hm
      obtain ⟨ws, rfl, hws⟩ := ih h
      exact ⟨(name, v) :: ws, rfl, .cons ⟨hname, hv⟩ hws⟩

/-! ## What reading and printing make of a datum -/

/-- The numeral that a numeral is printed as after it has been read. -/
def NumberLiteral.respelled (a : NumberLiteral) : NumberLiteral :=
  ((Number.ofLiteral a).map Number.spell).getD a

/-- What is printed of the value says the same as the datum, but for numerals,
    if the datum repeats no names. -/
def Keeps (D : Datum NumberLiteral) (v : Value) : Prop :=
  D.Distinct → v.datum = D.map NumberLiteral.respelled

/-- Whatever is read from the tree keeps its datum. -/
def ReadsDatum (t : Tree) : Prop :=
  ∀ depth v, t.read depth = .ok v → ∃ D, t.datum? = some D ∧ Keeps D v

private theorem itemData?_of_readItems {depth : Nat} {items : List Tree}
    (ih : ∀ t ∈ items, ReadsDatum t) {vs : List Value}
    (h : readItems depth items = .ok vs) :
    ∃ Ds, itemData? items = some Ds ∧ ((∀ D ∈ Ds, D.Distinct) →
      itemData vs = Datum.mapItems NumberLiteral.respelled Ds) := by
  induction items generalizing vs with
  | nil =>
      cases h
      exact ⟨[], rfl, fun _ => rfl⟩
  | cons t rest ihrest =>
      rw [readItems] at h
      obtain ⟨v, hv, h⟩ := bind_eq_ok h
      obtain ⟨ws, hws, h⟩ := bind_eq_ok h
      cases h
      obtain ⟨D, hD, hkeeps⟩ := ih t (List.mem_cons_self ..) depth v hv
      obtain ⟨Ds, hDs, hrest⟩ :=
        ihrest (fun u hu => ih u (List.mem_cons_of_mem _ hu)) hws
      refine ⟨D :: Ds, ?_, ?_⟩
      · rw [itemData?, hD, hDs]
        rfl
      · intro hall
        obtain ⟨h1, h2⟩ := List.forall_mem_cons.mp hall
        rw [itemData, Datum.mapItems, hkeeps h1, hrest h2]

/-- Members that have been read keep their names and data one by one. -/
private theorem memberData?_of_forall₂ {depth : Nat}
    {members : List (StringLiteral × Tree)} {ws : List (String × Value)}
    (ih : ∀ m ∈ members, ReadsDatum m.2)
    (h : List.Forall₂ (fun m w => m.1.read = .ok w.1 ∧
      m.2.read depth = .ok w.2) members ws) :
    ∃ Ds, memberData? members = some Ds ∧
      List.Forall₂ (fun D w => D.1 = w.1 ∧ Keeps D.2 w.2) Ds ws := by
  induction h with
  | nil => exact ⟨[], rfl, .nil⟩
  | @cons m w rest ws hm hrest ihrest =>
      obtain ⟨key, t⟩ := m
      obtain ⟨hname, hv⟩ := hm
      obtain ⟨D, hD, hkeeps⟩ :=
        ih (key, t) (List.mem_cons_self ..) depth w.2 hv
      obtain ⟨Ds, hDs, hall⟩ :=
        ihrest (fun u hu => ih u (List.mem_cons_of_mem _ hu))
      refine ⟨(w.1, D) :: Ds, ?_, .cons ⟨rfl, hkeeps⟩ hall⟩
      rw [memberData?, memberDatum?, hname, hD, hDs]
      rfl

/-- The data of an object that has been read, before and after the members are
    inserted in turn. -/
private theorem memberData?_of_readMembers {depth : Nat}
    {members : List (StringLiteral × Tree)} {vs : List (String × Value)}
    (ih : ∀ m ∈ members, ReadsDatum m.2)
    (h : readMembers depth [] members = .ok vs) :
    ∃ Ds ws, memberData? members = some Ds ∧ vs = insertAll ws [] ∧
      List.Forall₂ (fun D w => D.1 = w.1 ∧ Keeps D.2 w.2) Ds ws := by
  obtain ⟨ws, hvs, hws⟩ := readMembers_eq_ok h
  obtain ⟨Ds, hDs, hall⟩ := memberData?_of_forall₂ ih hws
  exact ⟨Ds, ws, hDs, hvs, hall⟩

variable {Ds : List (String × Datum NumberLiteral)}
  {ws : List (String × Value)}

private theorem names_of_forall₂
    (h : List.Forall₂ (fun D w => D.1 = w.1 ∧ Keeps D.2 w.2) Ds ws) :
    Ds.map (·.1) = names ws := by
  induction h with
  | nil => rfl
  | cons hD _ ih => exact congrArg₂ List.cons hD.1 ih

private theorem memberData_of_forall₂
    (h : List.Forall₂ (fun D w => D.1 = w.1 ∧ Keeps D.2 w.2) Ds ws)
    (hd : ∀ D ∈ Ds, D.2.Distinct) :
    memberData ws = Datum.mapMembers NumberLiteral.respelled Ds := by
  induction h with
  | nil => rfl
  | @cons D w Ds ws hD _ ih =>
      obtain ⟨h1, h2⟩ := List.forall_mem_cons.mp hd
      obtain ⟨name, D⟩ := D
      obtain ⟨name', v⟩ := w
      obtain ⟨rfl, hkeeps⟩ := hD
      rw [memberData, Datum.mapMembers, ih h2, memberDatum, Datum.mapMember,
        hkeeps h1]

private theorem lookup_of_forall₂
    (h : List.Forall₂ (fun D w => D.1 = w.1 ∧ Keeps D.2 w.2) Ds ws)
    {name : String} {v : Value} (hv : ws.lookup name = some v) :
    ∃ D, Ds.lookup name = some D ∧ Keeps D v := by
  induction h with
  | nil => exact nomatch hv
  | @cons D w Ds ws hD _ ih =>
      obtain ⟨hname, hkeeps⟩ := hD
      rw [List.lookup_cons] at hv
      rw [List.lookup_cons, hname]
      by_cases heq : name = w.1
      · rw [heq, beq_self_eq_true] at hv ⊢
        cases hv
        exact ⟨D.2, rfl, hkeeps⟩
      · rw [beq_false_of_ne heq] at hv ⊢
        exact ih hv

theorem NumberLiteral.read_eq_ok_iff {a : NumberLiteral} {n : Number} :
    a.read = .ok n ↔ Number.ofLiteral a = some n := by
  rw [read]
  cases Number.ofLiteral a with
  | none =>
      constructor
      · rintro ⟨⟩
      · rintro ⟨⟩
  | some m =>
      constructor
      · rintro ⟨⟩
        rfl
      · rintro ⟨⟩
        rfl

/-- Reading keeps the datum of a tree, but for numerals. -/
theorem datum_of_read (t : Tree) : ReadsDatum t := by
  induction t using Tree.induction with
  | null =>
      rintro depth v ⟨⟩
      exact ⟨.null, rfl, fun _ => rfl⟩
  | bool b =>
      rintro depth v ⟨⟩
      exact ⟨.bool b, rfl, fun _ => rfl⟩
  | number n =>
      intro depth v h
      rw [Tree.read] at h
      obtain ⟨x, hx, h⟩ := bind_eq_ok h
      cases h
      refine ⟨.number n, rfl, fun _ => ?_⟩
      rw [Value.datum, Datum.map, NumberLiteral.respelled,
        NumberLiteral.read_eq_ok_iff.mp hx]
      rfl
  | string s =>
      intro depth v h
      rw [Tree.read] at h
      obtain ⟨text, htext, h⟩ := bind_eq_ok h
      cases h
      refine ⟨.string text, ?_, fun _ => rfl⟩
      rw [Tree.datum?, htext]
      rfl
  | array items close ih =>
      intro depth v h
      obtain ⟨-, rfl, vs, hvs, rfl⟩ := read_array_eq_ok h
      obtain ⟨Ds, hDs, hkeeps⟩ := itemData?_of_readItems ih hvs
      refine ⟨.array Ds, ?_, ?_⟩
      · rw [Tree.datum?, if_pos rfl, hDs]
        rfl
      · rintro (_ | _ | _ | _ | ⟨hall⟩)
        exact congrArg Datum.array (hkeeps hall)
  | object members close ih =>
      intro depth v h
      obtain ⟨-, rfl, vs, hvs, rfl⟩ := read_object_eq_ok h
      obtain ⟨Ds, ws, hDs, rfl, hall⟩ := memberData?_of_readMembers ih hvs
      refine ⟨.object Ds, ?_, ?_⟩
      · rw [Tree.datum?, if_pos rfl, hDs]
        rfl
      · rintro (_ | _ | _ | _ | _ | ⟨hn, hd⟩)
        -- without a repeated name inserting in turn drops no member
        rw [names_of_forall₂ hall] at hn
        rw [insertAll_nil_of_nodup hn]
        exact congrArg Datum.object (memberData_of_forall₂ hall hd)
  | broken b =>
      intro depth v h
      cases h

/-- Only an object is read as an object. -/
private theorem eq_object_of_read {t : Tree} {depth : Nat}
    {vs : List (String × Value)} (h : t.read depth = .ok (.object vs)) :
    ∃ members close, t = .object members close := by
  cases t with
  | object members close => exact ⟨members, close, rfl⟩
  | null => cases h
  | bool b => cases h
  | broken b => cases h
  | number n =>
      obtain ⟨x, -, h⟩ := bind_eq_ok h
      cases h
  | string s =>
      obtain ⟨x, -, h⟩ := bind_eq_ok h
      cases h
  | array items close =>
      obtain ⟨-, -, x, -, h⟩ := read_array_eq_ok h
      cases h

/-- What is looked up in an object that has been read keeps the datum of the
    last member of that name. -/
theorem member_of_read {t : Tree} {depth : Nat} {vs : List (String × Value)}
    (h : t.read depth = .ok (.object vs)) {name : String} {v : Value}
    (hv : lookupMember name vs = some v) :
    ∃ D E, t.datum? = some D ∧ D.member? name = some E ∧ Keeps E v := by
  obtain ⟨members, close, rfl⟩ := eq_object_of_read h
  obtain ⟨-, rfl, us, hus, heq⟩ := read_object_eq_ok h
  cases heq
  obtain ⟨Ds, ws, hDs, rfl, hall⟩ :=
    memberData?_of_readMembers (fun m _ => datum_of_read m.2) hus
  rw [lookupMember_insertAll] at hv
  have hlookup : ws.reverse.lookup name = some v := by
    rw [← hv]
    exact (Option.or_none).symm
  obtain ⟨E, hE, hkeeps⟩ :=
    lookup_of_forall₂ (List.rel_reverse hall) hlookup
  refine ⟨.object Ds, E, ?_, hE, hkeeps⟩
  rw [Tree.datum?, if_pos rfl, hDs]
  rfl

private theorem lookup_map_snd {α β : Type} (f : α → β) (name : String)
    (l : List (String × α)) :
    (l.map fun m => (m.1, f m.2)).lookup name = (l.lookup name).map f := by
  induction l with
  | nil => rfl
  | cons m rest ih =>
      rw [List.map_cons, List.lookup_cons, List.lookup_cons, ih]
      cases name == m.1 <;> rfl

/-- Among members that repeat no name the last one of a name is the first. -/
theorem member?_datum {members : List (String × Value)}
    (hn : (names members).Nodup) (name : String) :
    (Value.object members).datum.member? name
      = (lookupMember name members).map Value.datum := by
  have hlast := lookupMember_insertAll name members []
  rw [insertAll_nil_of_nodup hn] at hlast
  change (memberData members).reverse.lookup name
    = (lookupMember name members).map Value.datum
  rw [memberData_eq_map, ← List.map_reverse, lookup_map_snd, hlast]
  exact congrArg (Option.map _) Option.or_none.symm

/-! ## Numbers that are kept -/

namespace NumberLiteral

open RiskExchange.Number (Numeral.digitsValue decimalDigits
  digitsValue_decimalDigits)
open RiskExchange.Text (maxWord64)

variable {a : NumberLiteral}

/-- The number that a numeral stands for. -/
def exact (a : NumberLiteral) : ℚ := if a.negative then -a.worth else a.worth

/-- An integer that fits 64 bits, with or without a sign. -/
structure IsWord (a : NumberLiteral) : Prop where
  fraction : a.fraction = none
  exponent : a.exponent = none
  fits : Numeral.digitsValue 0 a.whole
    ≤ if a.negative then 2 ^ 63 else maxWord64

private theorem worth_integer (negative : Bool) (ds : List Nat) :
    worth ⟨negative, ds, none, none⟩ = Numeral.digitsValue 0 ds := by
  have hpow : exponentValue ⟨negative, ds, none, none⟩
      - (places ⟨negative, ds, none, none⟩).length = 0 := rfl
  rw [worth, hpow, zpow_zero, mul_one, places, Option.getD_none,
    List.append_nil]

theorem ofLiteral_integer (negative : Bool) {ds : List Nat}
    (h : Numeral.digitsValue 0 ds ≤ maxWord64) :
    Number.ofLiteral ⟨negative, ds, none, none⟩
      = Number.ofInteger negative (Numeral.digitsValue 0 ds) := by
  rw [Number.ofLiteral, Number.absorb_of_le h]
  rfl

/-- An integer that fits 64 bits is printed as the number that was read. -/
theorem exact_respelled (h : a.IsWord) : a.respelled.exact = a.exact := by
  obtain ⟨negative, ds, fraction, exponent⟩ := a
  obtain ⟨rfl, rfl, hfits⟩ := h
  rw [respelled]
  cases negative with
  | false =>
      rw [ofLiteral_integer false hfits]
      change worth ⟨false, decimalDigits _, none, none⟩ = worth _
      rw [worth_integer, worth_integer, digitsValue_decimalDigits]
  | true =>
      have hfits : Numeral.digitsValue 0 ds ≤ 2 ^ 63 := hfits
      have hword : Numeral.digitsValue 0 ds ≤ maxWord64 :=
        Nat.le_trans hfits (by decide)
      rw [ofLiteral_integer true hword]
      by_cases hzero : Numeral.digitsValue 0 ds = 0
      · -- a negative zero is read as a binary number
        have hread : Number.ofInteger true 0 = some (.float (.zero true)) := by
          decide
        rw [hzero, hread]
        change -worth ⟨true, [0], some [0], none⟩ = -worth _
        rw [worth_integer, hzero, worth]
        change -(((0 : Nat) : ℚ) * _) = _
        rw [Nat.cast_zero, zero_mul]
      · have hread : Number.ofInteger true (Numeral.digitsValue 0 ds)
            = some (.negative (Numeral.digitsValue 0 ds)) := by
          rw [Number.ofInteger, if_neg (by decide)]
          exact if_pos ⟨Nat.pos_of_ne_zero hzero, hfits⟩
        rw [hread]
        change -worth ⟨true, decimalDigits _, none, none⟩ = -worth _
        rw [worth_integer, worth_integer, digitsValue_decimalDigits]

end NumberLiteral
end RiskExchange.Json
