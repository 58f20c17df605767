import RiskExchange.Proofs.Disk.Entries
import RiskExchange.Proofs.Results

/-! # Lookup — where a path leads, and what operations find there

    A path that can be opened as a file leads to one place (`Leads`). Lookup
    goes through directories only, so a path goes on leading there for as long
    as directories are kept (`Leads.mono`), and each operation on a path is
    settled by what stands at its place. -/

namespace RiskExchange.Disk

variable {d d' : Disk} {path : String} {p q : Place} {l : Location}
  {c : ByteArray}

/-! ## Steps -/

/-- The path is a text that a system call takes. -/
structure Path.Usable (path : String) : Prop where
  noNul : path.toList.contains '\x00' = false
  nonempty : path ≠ ""
  short : path.utf8ByteSize ≤ maxPathSize

/-- The names and dots of a path, in order. -/
def Path.steps (path : String) : List String :=
  ((segments path).filter (· ≠ [])).map String.ofList

/-- Where the steps of a path begin. -/
def Path.start (here : Place) (path : String) : Place :=
  if (segments path).head? = some [] then [] else here

/-- A usable path is looked up by walking all steps but the last. -/
theorem locate_of_usable (d : Disk) (h : Path.Usable path) :
    d.locate path = match (Path.steps path).getLast? with
      | none => .ok ⟨Path.start d.here path, .root, true⟩
      | some last =>
        (d.walk (Path.start d.here path) (Path.steps path).dropLast).map
          fun directory => ⟨directory, lastStep last, endsWithSlash path⟩ := by
  rw [locate]
  simp only [h.noNul, h.nonempty, Nat.not_lt.mpr h.short, if_false,
    Bool.false_eq_true]
  change (match (Path.steps path).getLast? with
      | none => _
      | some last => _) = _
  cases (Path.steps path).getLast? with
  | none => rfl
  | some last =>
      change (d.walk (Path.start d.here path) (Path.steps path).dropLast
        >>= _) = _
      cases d.walk (Path.start d.here path) (Path.steps path).dropLast with
      | error e => rfl
      | ok p => rfl

/-- Only usable paths lead anywhere. -/
theorem usable_of_locate (h : d.locate path = .ok l) : Path.Usable path := by
  rw [locate] at h
  by_cases h1 : path.toList.contains '\x00' = true
  · rw [if_pos h1] at h
    exact nomatch h
  · rw [if_neg h1] at h
    by_cases h2 : path = ""
    · simp only [if_pos h2] at h
      exact nomatch h
    · simp only [if_neg h2] at h
      by_cases h3 : maxPathSize < path.utf8ByteSize
      · simp only [if_pos h3] at h
        exact nomatch h
      · exact ⟨by simpa using h1, h2, Nat.not_lt.mp h3⟩

/-- A path is not found for want of an entry, not for its text. -/
theorem usable_of_notFound (hne : path ≠ "")
    (h : d.entryAt path = .error .notFound) : Path.Usable path := by
  cases hl : d.locate path with
  | ok l => exact usable_of_locate hl
  | error e =>
      have he : e = .notFound := by
        rw [entryAt, hl] at h
        exact Except.error.inj h
      rw [he, locate] at hl
      by_cases h1 : path.toList.contains '\x00' = true
      · rw [if_pos h1] at hl
        exact nomatch hl
      · rw [if_neg h1, if_neg hne] at hl
        by_cases h2 : maxPathSize < path.utf8ByteSize
        · simp only [if_pos h2] at hl
          exact nomatch hl
        · exact ⟨by simpa using h1, hne, Nat.not_lt.mp h2⟩

/-! ## Lookup on a disk with more directories -/

theorem enter_mono (h : KeepsDirectories d d') {step : String}
    (hp : d.enter p step = .ok q) : d'.enter p step = .ok q := by
  rw [enter] at hp ⊢
  by_cases h1 : step = "."
  · rw [if_pos h1] at hp ⊢
    exact hp
  · rw [if_neg h1] at hp ⊢
    by_cases h2 : step = ".."
    · rw [if_pos h2] at hp ⊢
      exact hp
    · rw [if_neg h2] at hp ⊢
      by_cases h3 : maxNameSize < step.utf8ByteSize
      · rw [if_pos h3] at hp
        exact nomatch hp
      · rw [if_neg h3] at hp ⊢
        cases hg : d.get? (p ++ [step]) with
        | none =>
            rw [hg] at hp
            exact nomatch hp
        | some e =>
            rw [hg] at hp
            cases e with
            | file c => exact nomatch hp
            | directory =>
                rw [h.keeps _ hg]
                exact hp

theorem walk_mono (h : KeepsDirectories d d') {steps : List String}
    (hp : d.walk p steps = .ok q) : d'.walk p steps = .ok q := by
  induction steps generalizing p with
  | nil => exact hp
  | cons step rest ih =>
      rw [walk] at hp ⊢
      cases he : d.enter p step with
      | error e =>
          rw [he] at hp
          exact nomatch hp
      | ok r =>
          rw [he] at hp
          rw [enter_mono h he]
          exact ih hp

/-- Where a path leads does not change while directories are kept. -/
theorem locate_mono (h : KeepsDirectories d d')
    (hl : d.locate path = .ok l) : d'.locate path = .ok l := by
  have hu := usable_of_locate hl
  rw [locate_of_usable d hu] at hl
  rw [locate_of_usable d' hu, h.here]
  cases hlast : (Path.steps path).getLast? with
  | none =>
      rw [hlast] at hl
      exact hl
  | some last =>
      simp only [hlast] at hl ⊢
      cases hw : d.walk (Path.start d.here path)
          (Path.steps path).dropLast with
      | error e =>
          rw [hw] at hl
          exact nomatch hl
      | ok r =>
          rw [hw] at hl
          rw [walk_mono h hw]
          exact hl

/-! ## The place of a path -/

/-- The path leads to the place, as the path of a file may: its last step is a
    name that is not too long, and no slash follows. -/
def Leads (d : Disk) (path : String) (p : Place) : Prop :=
  ∃ directory n, d.locate path = .ok ⟨directory, .name n, false⟩ ∧
    n.utf8ByteSize ≤ maxNameSize ∧ p = directory ++ [n]

theorem Leads.unique (h : Leads d path p) (h' : Leads d path q) : p = q := by
  obtain ⟨dir, n, hl, -, hp⟩ := h
  obtain ⟨dir', n', hl', -, hq⟩ := h'
  rw [hl] at hl'
  cases hl'
  rw [hp, hq]

theorem Leads.mono (h : KeepsDirectories d d') (hp : Leads d path p) :
    Leads d' path p := by
  obtain ⟨dir, n, hl, hn, heq⟩ := hp
  exact ⟨dir, n, locate_mono h hl, hn, heq⟩

theorem Leads.ne_nil (h : Leads d path p) : p ≠ [] := by
  obtain ⟨dir, n, -, -, heq⟩ := h
  rw [heq]
  exact List.append_ne_nil_of_right_ne_nil dir (List.cons_ne_nil n [])

private theorem length_of_mem_splitSlashes {s : List Char}
    {segment : List Char} (h : segment ∈ Path.splitSlashes s) :
    segment.length ≤ s.length := by
  induction s generalizing segment with
  | nil =>
      rw [Path.splitSlashes, List.mem_singleton] at h
      rw [h]
  | cons a rest ih =>
      rw [Path.splitSlashes] at h
      cases hs : Path.splitSlashes rest with
      | nil =>
          rw [hs] at h
          rw [List.mem_singleton.mp h]
          exact Nat.succ_le_succ (Nat.zero_le _)
      | cons first others =>
          rw [hs] at h ih
          have hfirst := ih (List.mem_cons_self ..)
          by_cases ha : a = '/'
          · simp only [if_pos ha] at h
            rcases List.mem_cons.mp h with heq | hmem
            · rw [heq]
              exact Nat.zero_le _
            · exact Nat.le_succ_of_le (ih hmem)
          · simp only [if_neg ha] at h
            rcases List.mem_cons.mp h with heq | hmem
            · rw [heq]
              exact Nat.succ_le_succ hfirst
            · exact Nat.le_succ_of_le (ih (List.mem_cons_of_mem _ hmem))

/-- The steps of a path are no longer than the path. -/
theorem length_le_of_mem_steps {step : String} (h : step ∈ Path.steps path) :
    step.length ≤ path.length := by
  obtain ⟨segment, hmem, heq⟩ := List.mem_map.mp h
  have hle := length_of_mem_splitSlashes (List.mem_filter.mp hmem).1
  rw [← heq, String.length_ofList, ← String.length_toList]
  exact hle

theorem mem_steps_of_locate {directory : Place} {n : String} {slash : Bool}
    (h : d.locate path = .ok ⟨directory, .name n, slash⟩) :
    n ∈ Path.steps path := by
  rw [locate_of_usable d (usable_of_locate h)] at h
  cases hlast : (Path.steps path).getLast? with
  | none =>
      simp only [hlast] at h
      exact nomatch h
  | some last =>
      simp only [hlast] at h
      cases hw : d.walk (Path.start d.here path)
          (Path.steps path).dropLast with
      | error e =>
          rw [hw] at h
          exact nomatch h
      | ok r =>
          rw [hw] at h
          have hstep : lastStep last = .name n :=
            congrArg Location.last (Except.ok.inj h)
          rw [lastStep] at hstep
          by_cases hdots : last = "." ∨ last = ".."
          · rw [if_pos hdots] at hstep
            exact nomatch hstep
          · rw [if_neg hdots] at hstep
            rw [← LastStep.name.inj hstep]
            exact List.mem_of_getLast? hlast

/-- The last name of a path's place is no longer than the path. -/
theorem Leads.length_le (h : Leads d path p) :
    ∃ directory n, p = directory ++ [n] ∧ n.length ≤ path.length := by
  obtain ⟨dir, n, hl, -, heq⟩ := h
  exact ⟨dir, n, heq, length_le_of_mem_steps (mem_steps_of_locate hl)⟩

/-! ## Operations on the place of a path -/

theorem entryIn_of_size {n : String} (h : n.utf8ByteSize ≤ maxNameSize) :
    d.entryIn p n = .ok (d.get? (p ++ [n])) :=
  if_neg (Nat.not_lt.mpr h)

/-- An operation on a name that succeeds has found the name short enough, and
    has gone on with what stands there. -/
theorem entryIn_bind_eq_ok {α : Type} {n : String}
    {f : Option Entry → Except Failure α} {a : α}
    (h : d.entryIn p n >>= f = .ok a) :
    n.utf8ByteSize ≤ maxNameSize ∧ f (d.get? (p ++ [n])) = .ok a := by
  by_cases hn : maxNameSize < n.utf8ByteSize
  · rw [entryIn, if_pos hn] at h
    exact nomatch h
  · rw [entryIn_of_size (Nat.not_lt.mp hn)] at h
    exact ⟨Nat.not_lt.mp hn, h⟩

/-- Reading a path finds what stands at its place. -/
theorem Leads.entryAt (h : Leads d path p) :
    d.entryAt path = match d.get? p with
      | none => .error .notFound
      | some e => .ok e := by
  obtain ⟨dir, n, hl, hn, heq⟩ := h
  rw [Disk.entryAt, hl, heq]
  change (d.entryIn dir n >>= _) = _
  rw [entryIn_of_size hn]
  cases d.get? (dir ++ [n]) with
  | none => rfl
  | some e =>
      cases e with
      | file c => rfl
      | directory => rfl

/-- What is read as a file stands at the place of the path. -/
theorem leads_of_entryAt (h : d.entryAt path = .ok (.file c)) :
    ∃ p, Leads d path p ∧ d.get? p = some (.file c) := by
  obtain ⟨⟨dir, last, slash⟩, hl, h⟩ := bind_eq_ok h
  cases last with
  | dots step => exact nomatch h
  | root => exact nomatch h
  | name n =>
      obtain ⟨hn, h⟩ := entryIn_bind_eq_ok h
      cases hg : d.get? (dir ++ [n]) with
      | none =>
          rw [hg] at h
          exact nomatch h
      | some e =>
          rw [hg] at h
          cases e with
          | directory => exact nomatch h
          | file c' =>
              cases slash with
              | true => exact nomatch h
              | false =>
                  cases h
                  exact ⟨_, ⟨dir, n, hl, hn, rfl⟩, hg⟩

/-- What a path shows: the file or the directory read there, if any. -/
def shown (d : Disk) (path : String) : Option Entry :=
  (d.entryAt path).toOption

theorem shown_eq_some_iff {e : Entry} :
    d.shown path = some e ↔ d.entryAt path = .ok e :=
  toOption_eq_some_iff

theorem Leads.shown (h : Leads d path p) : d.shown path = d.get? p := by
  rw [Disk.shown, h.entryAt]
  cases d.get? p with
  | none => rfl
  | some e => rfl

/-- A file may be written wherever the path leads, unless to a directory. -/
theorem placeToWrite_eq_ok_iff :
    d.placeToWrite path = .ok p ↔
      Leads d path p ∧ d.get? p ≠ some .directory := by
  constructor
  · intro h
    obtain ⟨⟨dir, last, slash⟩, hl, h⟩ := bind_eq_ok h
    cases last with
    | dots step => exact nomatch h
    | root => exact nomatch h
    | name n =>
        cases slash with
        | true => exact nomatch h
        | false =>
            obtain ⟨hn, h⟩ := entryIn_bind_eq_ok h
            cases hg : d.get? (dir ++ [n]) with
            | none =>
                rw [hg] at h
                cases h
                exact ⟨⟨dir, n, hl, hn, rfl⟩, by simp [hg]⟩
            | some e =>
                rw [hg] at h
                cases e with
                | directory => exact nomatch h
                | file c =>
                    cases h
                    exact ⟨⟨dir, n, hl, hn, rfl⟩, by simp [hg]⟩
  · rintro ⟨⟨dir, n, hl, hn, heq⟩, hd⟩
    rw [placeToWrite, hl]
    change (d.entryIn dir n >>= _) = _
    rw [entryIn_of_size hn, ← heq]
    cases hg : d.get? p with
    | none => rw [heq]; rfl
    | some e =>
        cases e with
        | directory => exact absurd hg hd
        | file c => rw [heq]; rfl

/-- Writing puts the file at the place of the path. -/
theorem writeFile_eq_ok_iff :
    d.writeFile path c = .ok d' ↔
      ∃ p, Leads d path p ∧ d.get? p ≠ some .directory ∧
        d' = d.put p (.file c) := by
  constructor
  · intro h
    obtain ⟨p, hp, h⟩ := bind_eq_ok h
    obtain ⟨hl, hd⟩ := placeToWrite_eq_ok_iff.mp hp
    exact ⟨p, hl, hd, (Except.ok.inj h).symm⟩
  · rintro ⟨p, hl, hd, heq⟩
    rw [writeFile, placeToWrite_eq_ok_iff.mpr ⟨hl, hd⟩, heq]
    rfl

/-- Removing erases the file at the place of the path. -/
theorem Leads.removeFile (h : Leads d path p)
    (hc : d.get? p = some (.file c)) :
    d.removeFile path = .ok (d.erase p) := by
  obtain ⟨dir, n, hl, hn, heq⟩ := h
  rw [Disk.removeFile, hl]
  change (d.entryIn dir n >>= _) = _
  rw [entryIn_of_size hn, ← heq, hc, heq]
  rfl

/-- Only a file can be removed. -/
theorem removeFile_eq_ok_iff :
    d.removeFile path = .ok d' ↔
      ∃ p c, Leads d path p ∧ d.get? p = some (.file c) ∧
        d' = d.erase p := by
  constructor
  · intro h
    obtain ⟨⟨dir, last, slash⟩, hl, h⟩ := bind_eq_ok h
    cases last with
    | dots step => exact nomatch h
    | root => exact nomatch h
    | name n =>
        obtain ⟨hn, h⟩ := entryIn_bind_eq_ok h
        cases hg : d.get? (dir ++ [n]) with
        | none =>
            rw [hg] at h
            exact nomatch h
        | some e =>
            rw [hg] at h
            cases e with
            | directory => exact nomatch h
            | file c =>
                cases slash with
                | true => exact nomatch h
                | false =>
                    exact ⟨dir ++ [n], c, ⟨dir, n, hl, hn, rfl⟩, hg,
                      (Except.ok.inj h).symm⟩
  · rintro ⟨p, c, hl, hc, rfl⟩
    exact hl.removeFile hc

/-- A path whose file has been removed is not found. -/
theorem entryAt_of_removeFile (h : d.removeFile path = .ok d') :
    d'.entryAt path = .error .notFound := by
  obtain ⟨p, c, hl, hc, rfl⟩ := removeFile_eq_ok_iff.mp h
  have hkeeps : KeepsDirectories d (d.erase p) := by
    refine KeepsDirectories.erase d ?_
    rw [hc]
    exact fun hd => nomatch hd
  rw [(hl.mono hkeeps).entryAt, get?_erase_self d hl.ne_nil]

/-- A path at which nothing is found to be removed is not found. -/
theorem entryAt_of_removeFile_notFound
    (h : d.removeFile path = .error .notFound) :
    d.entryAt path = .error .notFound := by
  rcases bind_eq_error_iff.mp h with hl | ⟨⟨dir, last, slash⟩, hl, h⟩
  · rw [Disk.entryAt, hl]
    rfl
  · cases last with
    | dots step => exact nomatch h
    | root => exact nomatch h
    | name n =>
        rw [Disk.entryAt, hl]
        rcases bind_eq_error_iff.mp h with he | ⟨found, he, h⟩
        · change (d.entryIn dir n >>= _) = _
          rw [he]
          rfl
        · change (d.entryIn dir n >>= _) = _
          rw [he]
          cases found with
          | none => rfl
          | some e =>
              cases e with
              | directory => exact nomatch h
              | file c =>
                  cases slash with
                  | true => exact nomatch h
                  | false => exact nomatch h

/-- A file is moved wherever the path leads, unless to a directory. -/
theorem moveFile_eq_ok_iff :
    d.moveFile q path = .ok d' ↔
      ∃ c p, d.get? q = some (.file c) ∧ Leads d path p ∧
        d.get? p ≠ some .directory ∧
        d' = (d.erase q).put p (.file c) := by
  constructor
  · intro h
    rw [moveFile] at h
    cases hq : d.get? q with
    | none =>
        rw [hq] at h
        exact nomatch h
    | some e =>
        rw [hq] at h
        cases e with
        | directory => exact nomatch h
        | file c =>
            by_cases hnul : path.toList.contains '\x00' = true
            · simp only [if_pos hnul] at h
              exact nomatch h
            · simp only [if_neg hnul] at h
              obtain ⟨⟨dir, last, slash⟩, hl, h⟩ := bind_eq_ok h
              cases last with
              | dots step => exact nomatch h
              | root => exact nomatch h
              | name n =>
                  obtain ⟨hn, h⟩ := entryIn_bind_eq_ok h
                  cases slash with
                  | true => exact nomatch h
                  | false =>
                      refine ⟨c, dir ++ [n], rfl, ⟨dir, n, hl, hn, rfl⟩, ?_⟩
                      cases hg : d.get? (dir ++ [n]) with
                      | none =>
                          rw [hg] at h
                          exact ⟨by simp, (Except.ok.inj h).symm⟩
                      | some e =>
                          rw [hg] at h
                          cases e with
                          | directory => exact nomatch h
                          | file c' =>
                              exact ⟨by simp, (Except.ok.inj h).symm⟩
  · rintro ⟨c, p, hq, ⟨dir, n, hl, hn, heq⟩, hd, rfl⟩
    have hnul := (usable_of_locate hl).noNul
    simp only [moveFile, hq, hnul, hl]
    rw [if_neg Bool.false_ne_true]
    change (d.entryIn dir n >>= _) = _
    rw [entryIn_of_size hn, ← heq]
    cases hg : d.get? p with
    | none => rw [heq]; rfl
    | some e =>
        cases e with
        | directory => exact absurd hg hd
        | file c' => rw [heq]; rfl

/-! ## Directories -/

/-- What is read as a directory stays one while directories are kept. -/
theorem entryAt_directory_mono (h : KeepsDirectories d d')
    (hp : d.entryAt path = .ok .directory) :
    d'.entryAt path = .ok .directory := by
  obtain ⟨⟨dir, last, slash⟩, hl, hp⟩ := bind_eq_ok hp
  rw [Disk.entryAt, locate_mono h hl]
  cases last with
  | dots step => rfl
  | root => rfl
  | name n =>
      obtain ⟨hn, hp⟩ := entryIn_bind_eq_ok hp
      change (d'.entryIn dir n >>= _) = _
      rw [entryIn_of_size hn]
      cases hg : d.get? (dir ++ [n]) with
      | none =>
          rw [hg] at hp
          exact nomatch hp
      | some e =>
          rw [hg] at hp
          cases e with
          | directory =>
              rw [h.keeps _ hg]
              rfl
          | file c =>
              cases slash with
              | true => exact nomatch hp
              | false => exact nomatch hp

theorem isDirectory_iff :
    d.isDirectory path = true ↔ d.entryAt path = .ok .directory := by
  rw [isDirectory]
  constructor
  · intro h
    split at h
    · assumption
    · exact nomatch h
  · intro h
    rw [h]

theorem isDirectory_mono (h : KeepsDirectories d d')
    (hp : d.isDirectory path = true) : d'.isDirectory path = true :=
  isDirectory_iff.mpr (entryAt_directory_mono h (isDirectory_iff.mp hp))

end RiskExchange.Disk
