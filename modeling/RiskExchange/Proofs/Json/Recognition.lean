import RiskExchange.Json.Value
import RiskExchange.Proofs.Json.Lexing
import RiskExchange.Proofs.Results

/-! # Recognition — a text is JSON exactly if it can be passed over

    What stands in front of a place in a text can be told from the open brackets
    there and from what may come next (`Opened`). Every token keeps this up,
    completes the value, or stops the parser at something that cannot be passed
    over (`Opened.step`). So a text spells the tree that is read from it if the
    tree can be passed over, and only then (`isJson_iff_pass`). -/

namespace RiskExchange.Json

variable {s space text : List Char} {t v : Tree} {close : Close}

/-! ## Values that can be passed over -/

theorem passItems_eq_ok {ts : List Tree} :
    passItems ts = .ok () ↔ ∀ t ∈ ts, t.pass = .ok () := by
  induction ts with
  | nil => exact ⟨fun _ _ h => (nomatch h), fun _ => rfl⟩
  | cons t rest ih =>
      rw [List.forall_mem_cons, passItems, ← ih]
      cases t.pass with
      | error f => exact ⟨fun h => (nomatch h), fun h => (nomatch h.1)⟩
      | ok u => exact ⟨fun h => ⟨rfl, h⟩, fun h => h.2⟩

theorem passMembers_eq_ok {ms : List (StringLiteral × Tree)} :
    passMembers ms = .ok () ↔
      ∀ m ∈ ms, m.1.pass = .ok () ∧ m.2.pass = .ok () := by
  induction ms with
  | nil => exact ⟨fun _ _ h => (nomatch h), fun _ => rfl⟩
  | cons m rest ih =>
      rw [List.forall_mem_cons, passMembers, passMember, ← ih]
      cases m.1.pass with
      | error f => exact ⟨fun h => (nomatch h), fun h => (nomatch h.1.1)⟩
      | ok u =>
          cases m.2.pass with
          | error f => exact ⟨fun h => (nomatch h), fun h => (nomatch h.1.2)⟩
          | ok u => exact ⟨fun h => ⟨⟨rfl, rfl⟩, h⟩, fun h => h.2⟩

theorem string_pass_eq_ok {l : StringLiteral} :
    l.pass = .ok () ↔ l.ending = .closed := by
  obtain ⟨pieces, ending⟩ := l
  cases ending <;> simp [StringLiteral.pass, StringEnd.fault?, check]

theorem array_pass_eq_ok {ts : List Tree} :
    (Tree.array ts close).pass = .ok () ↔
      (∀ t ∈ ts, t.pass = .ok ()) ∧ close = .closed := by
  rw [← passItems_eq_ok, Tree.pass]
  cases passItems ts with
  | error f => exact ⟨fun h => (nomatch h), fun h => (nomatch h.1)⟩
  | ok u =>
      rw [ok_bind]
      cases close <;> simp [Close.passedListFault?, Close.listFault?, check]

theorem object_pass_eq_ok {ms : List (StringLiteral × Tree)} :
    (Tree.object ms close).pass = .ok () ↔
      (∀ m ∈ ms, m.1.pass = .ok () ∧ m.2.pass = .ok ()) ∧
        close = .closed := by
  rw [← passMembers_eq_ok, Tree.pass]
  cases passMembers ms with
  | error f => exact ⟨fun h => (nomatch h), fun h => (nomatch h.1)⟩
  | ok u =>
      rw [ok_bind]
      cases close <;>
        simp [Close.passedObjectFault?, Close.objectFault?, check]

private theorem string_pass_of_spells {l : StringLiteral}
    (h : SpellsString l s) : l.pass = .ok () := by
  obtain ⟨h⟩ := h
  rfl

/-- A value that is spelled can be passed over. -/
theorem pass_of_spells (h : Spells t s) : t.pass = .ok () := by
  induction h with
  | null | true | false | number | emptyArray | emptyObject => rfl
  | string h => exact string_pass_of_spells h
  | @array parts hne hs h ih =>
      refine array_pass_eq_ok.mpr ⟨?_, rfl⟩
      intro t ht
      obtain ⟨p, hp, rfl⟩ := List.mem_map.mp ht
      exact ih p hp
  | @object parts hne hs hk h ih =>
      refine object_pass_eq_ok.mpr ⟨?_, rfl⟩
      intro m hm
      obtain ⟨p, hp, rfl⟩ := List.mem_map.mp hm
      exact ⟨string_pass_of_spells (hk p hp), ih p hp⟩

/-! ## Places in a text -/

/-- The element is spelled, with white space around it. -/
structure ItemPart.Sound (p : ItemPart) : Prop where
  spaced : Blank p.before ∧ Blank p.after
  spells : Spells p.tree p.text

/-- The member is spelled, with white space around its parts. -/
structure MemberPart.Sound (p : MemberPart) : Prop where
  spaced : p.Spaced
  key : SpellsString p.key p.keyText
  spells : Spells p.tree p.text

/-- Elements with a comma behind each. -/
def itemsText (parts : List ItemPart) : List Char :=
  parts.flatMap (·.written ++ [','])

/-- Members with a comma behind each. -/
def membersText (parts : List MemberPart) : List Char :=
  parts.flatMap (·.written ++ [','])

/-- What may come behind elements and their commas. -/
def dueItem : List ItemPart → Due
  | [] => .firstItem
  | _ :: _ => .itemAfterComma

/-- What may come behind members and their commas. -/
def dueKey : List MemberPart → Due
  | [] => .firstKey
  | _ :: _ => .keyAfterComma

/-- The elements of an open array, last first. -/
def itemsFrame (parts : List ItemPart) : List Tree :=
  (parts.map (·.tree)).reverse

/-- The members of an open object, last first. -/
def membersFrame (parts : List MemberPart) : List (StringLiteral × Tree) :=
  (parts.map fun p => (p.key, p.tree)).reverse

/-- The text up to a token leaves brackets open and says what may come next.
    What is open lies behind a place where a value may stand. -/
inductive Opened : List Frame → Due → List Char → Prop where
  | start : Opened [] .value []
  | items {stack : List Frame} {due : Due} {s space : List Char}
      {parts : List ItemPart} (h : Opened stack due s)
      (hd : due.TakesValue) (hs : Blank space) (hp : ∀ p ∈ parts, p.Sound) :
      Opened (.array (itemsFrame parts) :: stack) (dueItem parts)
        (s ++ space ++ '[' :: itemsText parts)
  | item {stack : List Frame} {due : Due} {s space before text : List Char}
      {parts : List ItemPart} {t : Tree} (h : Opened stack due s)
      (hd : due.TakesValue) (hs : Blank space) (hp : ∀ p ∈ parts, p.Sound)
      (hb : Blank before) (ht : Spells t text) :
      Opened (.array (t :: itemsFrame parts) :: stack) .afterItem
        (s ++ space ++ '[' :: itemsText parts ++ (before ++ text))
  | members {stack : List Frame} {due : Due} {s space : List Char}
      {parts : List MemberPart} (h : Opened stack due s)
      (hd : due.TakesValue) (hs : Blank space) (hp : ∀ p ∈ parts, p.Sound) :
      Opened (.object (membersFrame parts) :: stack) (dueKey parts)
        (s ++ space ++ '\x7b' :: membersText parts)
  | key {stack : List Frame} {due : Due} {s space before text : List Char}
      {parts : List MemberPart} {key : StringLiteral} (h : Opened stack due s)
      (hd : due.TakesValue) (hs : Blank space) (hp : ∀ p ∈ parts, p.Sound)
      (hb : Blank before) (hk : SpellsString key text) :
      Opened (.member (membersFrame parts) key :: stack) .colon
        (s ++ space ++ '\x7b' :: membersText parts ++ (before ++ text))
  | value {stack : List Frame} {due : Due}
      {s space beforeKey keyText afterKey : List Char}
      {parts : List MemberPart} {key : StringLiteral} (h : Opened stack due s)
      (hd : due.TakesValue) (hs : Blank space) (hp : ∀ p ∈ parts, p.Sound)
      (hb : Blank beforeKey) (hk : SpellsString key keyText)
      (ha : Blank afterKey) :
      Opened (.member (membersFrame parts) key :: stack) .value
        (s ++ space ++ '\x7b' :: membersText parts
          ++ (beforeKey ++ keyText ++ afterKey ++ [':']))
  | member {stack : List Frame} {due : Due}
      {s space beforeKey keyText afterKey before text : List Char}
      {parts : List MemberPart} {key : StringLiteral} {t : Tree}
      (h : Opened stack due s) (hd : due.TakesValue) (hs : Blank space)
      (hp : ∀ p ∈ parts, p.Sound) (hb : Blank beforeKey)
      (hk : SpellsString key keyText) (ha : Blank afterKey)
      (hv : Blank before) (ht : Spells t text) :
      Opened (.object ((key, t) :: membersFrame parts) :: stack) .afterMember
        (s ++ space ++ '\x7b' :: membersText parts
          ++ (beforeKey ++ keyText ++ afterKey ++ ':' :: before ++ text))

/-- What becomes of a text when a token is added: it goes on, it is a whole
    value, or it is not JSON. -/
inductive Proceeds (s : List Char) : Progress → Prop where
  | more {stack : List Frame} {due : Due} (h : Opened stack due s) :
      Proceeds s (.more stack due)
  | complete {t : Tree} {space text : List Char} (hs : Blank space)
      (ht : Spells t text) (hsplit : s = space ++ text) :
      Proceeds s (.complete t)
  | stopped {d : Document} (h : d.root.pass ≠ .ok ()) :
      Proceeds s (.stopped d)

variable {stack : List Frame} {due : Due}

/-! ## What cannot be passed over -/

/-- A place inside an array or behind a key. -/
def Due.IsInner (due : Due) : Prop := due.TakesValue ∨ due = .colon

private theorem not_isInner_dueKey (parts : List MemberPart) :
    ¬ (dueKey parts).IsInner := by
  cases parts <;> simp [dueKey, Due.IsInner, Due.TakesValue]

private theorem object_not_pass {ms : List (StringLiteral × Tree)}
    {key : StringLiteral} (hv : v.pass ≠ .ok ()) :
    (Tree.object ((key, v) :: ms).reverse close).pass ≠ .ok () := by
  intro h
  have hmem : (key, v) ∈ ((key, v) :: ms).reverse := by simp
  exact hv ((object_pass_eq_ok.mp h).1 _ hmem).2

private theorem array_not_pass {ts : List Tree} (hv : v.pass ≠ .ok ()) :
    (Tree.array (v :: ts).reverse close).pass ≠ .ok () := by
  intro h
  have hmem : v ∈ (v :: ts).reverse := by simp
  exact hv ((array_pass_eq_ok.mp h).1 v hmem)

/-- A value that cannot be passed over spoils everything around it. -/
theorem Opened.abandon_not_pass (h : Opened stack due s)
    (hinner : due.IsInner) (hv : v.pass ≠ .ok ()) :
    (abandon v stack).pass ≠ .ok () := by
  induction h generalizing v with
  | start => exact hv
  | items h hd hs hp ih => exact ih (.inl hd) (array_not_pass hv)
  | key h hd hs hp hb hk ih => exact ih (.inl hd) (object_not_pass hv)
  | value h hd hs hp hb hk ha ih => exact ih (.inl hd) (object_not_pass hv)
  | members => exact absurd hinner (not_isInner_dueKey _)
  | item | member => simp [Due.IsInner, Due.TakesValue] at hinner

/-- So does a bracket that is not closed. -/
theorem Opened.leaveOpen_not_pass (h : Opened stack due s)
    (hc : close ≠ .closed) : (leaveOpen close stack).root.pass ≠ .ok () := by
  have harray (ts : List Tree) : (Tree.array ts close).pass ≠ .ok () :=
    fun h => hc (array_pass_eq_ok.mp h).2
  have hobject (ms : List (StringLiteral × Tree)) :
      (Tree.object ms close).pass ≠ .ok () :=
    fun h => hc (object_pass_eq_ok.mp h).2
  cases h with
  | start => exact fun h => nomatch h
  | items h hd | item h hd => exact h.abandon_not_pass (.inl hd) (harray _)
  | members h hd | key h hd | value h hd | member h hd =>
      exact h.abandon_not_pass (.inl hd) (hobject _)

theorem Opened.breakOff_not_pass (h : Opened stack due s) (hd : due.IsInner)
    (b : Break) : (breakOff b stack).root.pass ≠ .ok () :=
  h.abandon_not_pass hd fun h => nomatch h

/-- A text that ends inside a value is not JSON. -/
theorem Opened.end_not_pass (h : Opened stack due s) :
    (endOfTokens stack due).root.pass ≠ .ok () := by
  cases due with
  | value => exact h.breakOff_not_pass (.inl (.inl rfl)) _
  | itemAfterComma => exact h.breakOff_not_pass (.inl (.inr (.inr rfl))) _
  | colon => exact h.breakOff_not_pass (.inr rfl) _
  | keyAfterComma => exact h.leaveOpen_not_pass (by simp)
  | firstItem | afterItem | firstKey | afterMember =>
      exact h.leaveOpen_not_pass (by simp)

/-! ## Tokens -/

/-- A value where one is due. -/
theorem Opened.accept (h : Opened stack due s) (hd : due.TakesValue)
    (hs : Blank space) (ht : Spells t text) :
    Proceeds (s ++ space ++ text) (accept t stack) := by
  cases h with
  | start => exact .complete hs ht rfl
  | items h hd' hs' hp =>
      refine .more ?_
      rw [List.append_assoc]
      exact .item h hd' hs' hp hs ht
  | value h hd' hs' hp hb hk ha =>
      refine .more ?_
      have hmember := Opened.member h hd' hs' hp hb hk ha hs ht
      simpa [Frame.add] using hmember
  | members => exact absurd (.inl hd) (not_isInner_dueKey _)
  | item | key | member => simp [Due.TakesValue] at hd

/-- A token where a value is due. -/
theorem Opened.stepValue {token : Token} (h : Opened stack due s)
    (hd : due.TakesValue) (hs : Blank space) (ht : SpellsToken token text) :
    Proceeds (s ++ space ++ text) (stepValue stack token) := by
  cases ht with
  | null => exact h.accept hd hs .null
  | true => exact h.accept hd hs .true
  | false => exact h.accept hd hs .false
  | number ht => exact h.accept hd hs (.number ht)
  | string ht => exact h.accept hd hs (.string ht)
  | openArray =>
      have hopen : Opened (.array (itemsFrame []) :: stack) (dueItem [])
          (s ++ space ++ '[' :: itemsText []) :=
        .items h hd hs fun _ h => nomatch h
      exact .more hopen
  | openObject =>
      have hopen : Opened (.object (membersFrame []) :: stack) (dueKey [])
          (s ++ space ++ '\x7b' :: membersText []) :=
        .members h hd hs fun _ h => nomatch h
      exact .more hopen
  | closeArray | closeObject | colon | comma =>
      exact .stopped (h.breakOff_not_pass (.inl hd) _)

/-! ## Closing brackets -/

theorem commaText_concat (texts : List (List Char)) (s : List Char) :
    commaText (texts ++ [s]) = texts.flatMap (· ++ [',']) ++ s := by
  cases texts with
  | nil => simp [commaText]
  | cons first rest =>
      induction rest generalizing first with
      | nil => simp [commaText]
      | cons second rest ih =>
          have hrest := ih second
          simp only [List.cons_append, commaText, List.flatMap_cons] at hrest ⊢
          rw [hrest]
          simp

private theorem forall_mem_concat {α : Type} {p : α → Prop} {as : List α}
    {a : α} (has : ∀ b ∈ as, p b) (ha : p a) : ∀ b ∈ as ++ [a], p b := by
  intro b hb
  rcases List.mem_append.mp hb with hb | hb
  · exact has b hb
  · rw [List.mem_singleton.mp hb]
    exact ha

/-- The elements of an array with one more, before its comma or the closing
    bracket. -/
private theorem item_comma {s space before text after : List Char}
    {parts : List ItemPart} (h : Opened stack due s) (hd : due.TakesValue)
    (hs : Blank space) (hp : ∀ p ∈ parts, p.Sound) (hb : Blank before)
    (ht : Spells t text) (ha : Blank after) :
    Opened (.array (t :: itemsFrame parts) :: stack) .itemAfterComma
      (s ++ space ++ '[' :: itemsText parts ++ (before ++ text) ++ after
        ++ [',']) := by
  have hsound := forall_mem_concat hp
    (ItemPart.Sound.mk (p := ⟨t, before, text, after⟩) ⟨hb, ha⟩ ht)
  have hopen := Opened.items h hd hs hsound
  have hdue : dueItem (parts ++ [⟨t, before, text, after⟩])
      = .itemAfterComma := by
    cases parts <;> rfl
  rw [hdue] at hopen
  simpa [itemsFrame, itemsText, ItemPart.written] using hopen

private theorem item_close {s space before text after : List Char}
    {parts : List ItemPart} (h : Opened stack due s) (hd : due.TakesValue)
    (hs : Blank space) (hp : ∀ p ∈ parts, p.Sound) (hb : Blank before)
    (ht : Spells t text) (ha : Blank after) :
    Proceeds (s ++ space ++ '[' :: itemsText parts ++ (before ++ text) ++ after
        ++ [']'])
      (accept ((Frame.array (t :: itemsFrame parts)).toTree .closed) stack) := by
  have hsound := forall_mem_concat hp
    (ItemPart.Sound.mk (p := ⟨t, before, text, after⟩) ⟨hb, ha⟩ ht)
  have hspells : Spells _ _ :=
    .array (by simp) (fun p h => (hsound p h).spaced)
      fun p h => (hsound p h).spells
  have haccept := h.accept hd hs hspells
  rw [List.map_append, List.map_append, List.map_singleton,
    List.map_singleton, commaText_concat] at haccept
  simpa [Frame.toTree, itemsFrame, itemsText, ItemPart.written,
    List.flatMap_map] using haccept

private theorem member_comma
    {s space beforeKey keyText afterKey before text after : List Char}
    {parts : List MemberPart} {key : StringLiteral} (h : Opened stack due s)
    (hd : due.TakesValue) (hs : Blank space) (hp : ∀ p ∈ parts, p.Sound)
    (hb : Blank beforeKey) (hk : SpellsString key keyText)
    (ha : Blank afterKey) (hv : Blank before) (ht : Spells t text)
    (hafter : Blank after) :
    Opened (.object ((key, t) :: membersFrame parts) :: stack) .keyAfterComma
      (s ++ space ++ '\x7b' :: membersText parts
        ++ (beforeKey ++ keyText ++ afterKey ++ ':' :: before ++ text)
        ++ after ++ [',']) := by
  have hsound := forall_mem_concat hp (MemberPart.Sound.mk
    (p := ⟨key, t, beforeKey, keyText, afterKey, before, text, after⟩)
    ⟨hb, ha, hv, hafter⟩ hk ht)
  have hopen := Opened.members h hd hs hsound
  have hdue : dueKey (parts
      ++ [⟨key, t, beforeKey, keyText, afterKey, before, text, after⟩])
      = .keyAfterComma := by
    cases parts <;> rfl
  rw [hdue] at hopen
  simpa [membersFrame, membersText, MemberPart.written] using hopen

private theorem member_close
    {s space beforeKey keyText afterKey before text after : List Char}
    {parts : List MemberPart} {key : StringLiteral} (h : Opened stack due s)
    (hd : due.TakesValue) (hs : Blank space) (hp : ∀ p ∈ parts, p.Sound)
    (hb : Blank beforeKey) (hk : SpellsString key keyText)
    (ha : Blank afterKey) (hv : Blank before) (ht : Spells t text)
    (hafter : Blank after) :
    Proceeds (s ++ space ++ '\x7b' :: membersText parts
        ++ (beforeKey ++ keyText ++ afterKey ++ ':' :: before ++ text)
        ++ after ++ ['\x7d'])
      (accept ((Frame.object ((key, t) :: membersFrame parts)).toTree .closed)
        stack) := by
  have hsound := forall_mem_concat hp (MemberPart.Sound.mk
    (p := ⟨key, t, beforeKey, keyText, afterKey, before, text, after⟩)
    ⟨hb, ha, hv, hafter⟩ hk ht)
  have hspells : Spells _ _ :=
    .object (by simp) (fun p h => (hsound p h).spaced)
      (fun p h => (hsound p h).key) fun p h => (hsound p h).spells
  have haccept := h.accept hd hs hspells
  rw [List.map_append, List.map_append, List.map_singleton,
    List.map_singleton, commaText_concat] at haccept
  simpa [Frame.toTree, membersFrame, membersText, MemberPart.written,
    List.flatMap_map] using haccept

/-! ## Steps -/

/-- Every token keeps up what can be told of a place, or completes the value,
    or stops the parser. -/
theorem Opened.step {token : Token} (h : Opened stack due s)
    (hs : Blank space) (ht : SpellsToken token text) :
    Proceeds (s ++ space ++ text) (stepTree stack due token) := by
  have hplace := h
  cases h with
  | start => exact hplace.stepValue (.inl rfl) hs ht
  | @items _ _ _ _ parts h hd hs' hp =>
      have htakes : (dueItem parts).TakesValue := by
        cases parts
        · exact .inr (.inl rfl)
        · exact .inr (.inr rfl)
      -- an array may close where its first element is due, but not behind
      -- a comma
      by_cases hclose : token = .closeArray
      · subst hclose
        cases ht
        cases parts with
        | nil =>
            have haccept := h.accept hd hs' (.emptyArray hs)
            change Proceeds _ (Json.accept (.array [] .closed) _)
            simpa [itemsText] using haccept
        | cons p rest => exact .stopped (hplace.leaveOpen_not_pass (by simp))
      · rw [stepTree_of_takesValue htakes hclose]
        exact hplace.stepValue htakes hs ht
  | item h hd hs' hp hb ht' =>
      cases ht with
      | comma => exact .more (item_comma h hd hs' hp hb ht' hs)
      | closeArray => exact item_close h hd hs' hp hb ht' hs
      | _ => exact .stopped (hplace.leaveOpen_not_pass (by simp))
  | @members _ _ _ _ parts h hd hs' hp =>
      cases parts with
      | nil =>
          cases ht with
          | closeObject =>
              have haccept := h.accept hd hs' (.emptyObject hs)
              change Proceeds _ (Json.accept (.object [] .closed) _)
              simpa [membersText] using haccept
          | string hk =>
              have hkey := Opened.key h hd hs' hp hs hk
              simp only [← List.append_assoc] at hkey
              exact .more hkey
          | _ => exact .stopped (hplace.leaveOpen_not_pass (by simp))
      | cons p rest =>
          cases ht with
          | string hk =>
              have hkey := Opened.key h hd hs' hp hs hk
              simp only [← List.append_assoc] at hkey
              exact .more hkey
          | _ => exact .stopped (hplace.leaveOpen_not_pass (by simp))
  | key h hd hs' hp hb hk =>
      cases ht with
      | colon =>
          have hvalue := Opened.value h hd hs' hp hb hk hs
          exact .more (by simpa using hvalue)
      | _ => exact .stopped (hplace.breakOff_not_pass (.inr rfl) _)
  | value h hd hs' hp hb hk ha => exact hplace.stepValue (.inl rfl) hs ht
  | member h hd hs' hp hb hk ha hv ht' =>
      cases ht with
      | comma => exact .more (member_comma h hd hs' hp hb hk ha hv ht' hs)
      | closeObject => exact member_close h hd hs' hp hb hk ha hv ht' hs
      | _ => exact .stopped (hplace.leaveOpen_not_pass (by simp))

/-! ## Faults -/

/-- A string without its closing quote is never passed over, wherever it
    stands. -/
private theorem Opened.string_not_pass (h : Opened stack due s)
    {l : StringLiteral} (hl : l.ending ≠ .closed) :
    (parseFrom stack due [.string l]).root.pass ≠ .ok () := by
  have hpass : (Tree.string l).pass ≠ .ok () :=
    fun h => hl (string_pass_eq_ok.mp h)
  have hplace := h
  cases h with
  | start => exact hpass
  | @items _ _ _ _ parts h hd hs hp =>
      cases parts <;> exact h.abandon_not_pass (.inl hd) (array_not_pass hpass)
  | item h hd hs hp hb ht => exact hplace.leaveOpen_not_pass (by simp)
  | @members _ _ _ _ parts h hd hs hp =>
      have hbroken : (Tree.broken (.always .endInObject)).pass ≠ .ok () :=
        fun h => nomatch h
      cases parts <;>
        exact h.abandon_not_pass (.inl hd) (object_not_pass hbroken)
  | key h hd hs hp hb hk => exact hplace.breakOff_not_pass (.inr rfl) _
  | value h hd hs hp hb hk ha =>
      exact h.abandon_not_pass (.inl hd) (object_not_pass hpass)
  | member h hd hs hp hb hk ha hv ht =>
      exact hplace.leaveOpen_not_pass (by simp)

theorem Opened.fault_not_pass {token : Token} (h : Opened stack due s)
    (ht : Faulty token) : (parseFrom stack due [token]).root.pass ≠ .ok () := by
  cases ht with
  | string hl => exact h.string_not_pass hl
  | broken | other =>
      cases due with
      | value => exact h.breakOff_not_pass (.inl (.inl rfl)) _
      | firstItem => exact h.breakOff_not_pass (.inl (.inr (.inl rfl))) _
      | itemAfterComma => exact h.breakOff_not_pass (.inl (.inr (.inr rfl))) _
      | colon => exact h.breakOff_not_pass (.inr rfl) _
      | keyAfterComma | afterItem | firstKey | afterMember =>
          exact h.leaveOpen_not_pass (by simp)

/-! ## Texts -/

private theorem isJson_of_parseFrom {cs : List Char} {tokens : List Token}
    (hcs : Lexes cs tokens) (h : Opened stack due s)
    (hparse : parseFrom stack due tokens = ⟨t, false⟩)
    (ht : t.pass = .ok ()) : IsJson t (s ++ cs) := by
  -- on how the rest is cut, with what is open in front of it as the invariant
  induction hcs generalizing stack due s with
  | blank hs =>
      have hend := h.end_not_pass
      change endOfTokens stack due = _ at hparse
      rw [hparse] at hend
      exact absurd ht hend
  | fault hfault cs =>
      have hend := h.fault_not_pass hfault
      rw [hparse] at hend
      exact absurd ht hend
  | @token token space text rest tokens hs htoken hr ih =>
      have hstep := h.step hs htoken
      rw [parseFrom_cons] at hparse
      generalize stepTree stack due token = next at hstep hparse
      cases hstep with
      | more h =>
          have hjson := ih h hparse
          simpa using hjson
      | complete hspace hspells hsplit =>
          obtain ⟨rfl, htrailing⟩ := Document.mk.inj hparse
          cases tokens with
          | cons first more => exact nomatch htrailing
          | nil =>
              cases hr with
              | blank hrest =>
                  have hjson := IsJson.intro hspace hspells hrest
                  rw [← hsplit] at hjson
                  simpa using hjson
      | @stopped d hd =>
          have hdocument : d = ⟨t, false⟩ := hparse
          rw [hdocument] at hd
          exact absurd ht hd

/-- A text spells the tree that is read from it if the tree can be passed over
    and nothing follows, and only then. -/
theorem isJson_iff_pass {cs : List Char} :
    IsJson t cs ↔
      Document.read (asGlyphs cs) = ⟨t, false⟩ ∧ t.pass = .ok () := by
  constructor
  · intro h
    refine ⟨read_of_isJson h, ?_⟩
    obtain ⟨-, h, -⟩ := h
    exact pass_of_spells h
  · rintro ⟨hread, hpass⟩
    exact isJson_of_parseFrom (lexes cs) .start hread hpass

end RiskExchange.Json
