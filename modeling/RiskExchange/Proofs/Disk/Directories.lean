import RiskExchange.Proofs.Disk.Lookup

/-! # Directories — making the directories on the way to a file

    Making directories adds directories where nothing stood and does nothing
    else, whether it succeeds or not (`changes_createDirAll`), and once it has
    succeeded it has nothing left to do (`createDirAll_again`). -/

namespace RiskExchange.Disk

variable {d d' : Disk} {path : String} {p : Place}

/-- The places that a path may lead to from a working directory, whatever
    stands on the disk. -/
def Path.mayName (here : Place) (path : String) : Set Place :=
  {p | ∃ (d : Disk) (directory : Place) (n : String) (slash : Bool),
    d.here = here ∧ d.locate path = .ok ⟨directory, .name n, slash⟩ ∧
      p = directory ++ [n]}

/-- The places at which the making of some paths may put directories. -/
def Path.mayMake (here : Place) (paths : List String) : Set Place :=
  {p | ∃ path ∈ paths, p ∈ mayName here path}

/-- Making one directory adds it where nothing stood. -/
theorem createDir_ok (h : d.createDir path = .ok d') :
    ∃ p ∈ Path.mayName d.here path, p ≠ [] ∧ d.get? p = none ∧
      d' = d.put p .directory ∧ d'.isDirectory path = true := by
  obtain ⟨⟨dir, last, slash⟩, hl, h⟩ := bind_eq_ok h
  cases last with
  | dots step => cases h
  | root => cases h
  | name n =>
      obtain ⟨hn, h⟩ := entryIn_bind_eq_ok h
      cases hg : d.get? (dir ++ [n]) with
      | some e =>
          rw [hg] at h
          cases h
      | none =>
          rw [hg] at h
          have hd' : d' = d.put (dir ++ [n]) .directory :=
            (Except.ok.inj h).symm
          have hne : dir ++ [n] ≠ [] := by simp
          have hkeep : KeepsDirectories d d' := by
            rw [hd']
            exact KeepsDirectories.put d hne (by simp [hg]) _
          refine ⟨dir ++ [n], ⟨d, dir, n, slash, rfl, hl, rfl⟩, hne, hg, hd',
            ?_⟩
          -- the path still leads there, and now to a directory
          rw [isDirectory_iff, entryAt, locate_mono hkeep hl]
          change (d'.entryIn dir n >>= _) = _
          rw [entryIn_of_size hn, hd', get?_put_self d hne]
          rfl

/-- A directory that is there is not made again. -/
theorem createDir_of_isDirectory (h : d.isDirectory path = true) :
    d.createDir path = .error .alreadyExists := by
  obtain ⟨⟨dir, last, slash⟩, hl, h⟩ := bind_eq_ok (isDirectory_iff.mp h)
  rw [createDir, hl]
  cases last with
  | dots step => rfl
  | root => rfl
  | name n =>
      obtain ⟨hn, h⟩ := entryIn_bind_eq_ok h
      change (d.entryIn dir n >>= _) = _
      rw [entryIn_of_size hn]
      cases hg : d.get? (dir ++ [n]) with
      | none =>
          rw [hg] at h
          cases h
      | some e => rfl

private theorem createDir_changes (paths : List String)
    (hmem : path ∈ paths) (h : d.createDir path = .ok d') :
    Changes (Path.mayMake d.here paths) ∅ d d' := by
  obtain ⟨p, hp, hne, hg, hd', -⟩ := createDir_ok h
  rw [hd']
  refine ⟨rfl, ?_⟩
  intro q _
  by_cases hq : q = p
  · rw [hq]
    exact .inr ⟨hg, get?_put_self d hne _, path, hmem, hp⟩
  · exact .inl (get?_put_of_ne d hne hq _)

private theorem acceptDir_cases (d : Disk) (path : String) (e : Failure) :
    (d.acceptDir path e).1 = d ∧
      ((d.acceptDir path e).2 = .ok () → d.isDirectory path = true) := by
  rw [acceptDir]
  by_cases h : d.isDirectory path = true
  · rw [if_pos h]
    exact ⟨rfl, fun _ => h⟩
  · rw [if_neg h]
    exact ⟨rfl, fun hok => nomatch hok⟩

/-- After the directories above, if they had to be made, a directory is made or
    the disk stays; and it stays on success only if there is a directory. -/
private theorem createDirs_cons (d : Disk) (path : String)
    (above : List String) :
    ∃ d1, (d1 = d ∨ d1 = (d.createDirs above).1) ∧
      ((∃ made, d1.createDir path = .ok made ∧
          d.createDirs (path :: above) = (made, .ok ())) ∨
        ((d.createDirs (path :: above)).1 = d1 ∧
          ((d.createDirs (path :: above)).2 = .ok () →
            d1.isDirectory path = true))) := by
  rw [createDirs]
  cases hc : d.createDir path with
  | ok made => exact ⟨d, .inl rfl, .inl ⟨made, hc, rfl⟩⟩
  | error e =>
      cases e
      case notFound =>
        rcases hr : d.createDirs above with ⟨d1, result⟩
        refine ⟨d1, .inr rfl, ?_⟩
        cases result with
        | error e => exact .inr ⟨rfl, fun hok => nomatch hok⟩
        | ok u =>
            simp only
            cases hc1 : d1.createDir path with
            | ok made => exact .inl ⟨made, rfl, rfl⟩
            | error e => exact .inr (acceptDir_cases d1 path e)
      all_goals exact ⟨d, .inl rfl, .inr (acceptDir_cases d path _)⟩

/-- Making directories only adds directories. -/
theorem changes_createDirs (d : Disk) (paths : List String) :
    Changes (Path.mayMake d.here paths) ∅ d (d.createDirs paths).1 := by
  induction paths with
  | nil => exact Changes.refl _ _ d
  | cons path above ih =>
      obtain ⟨d1, hd1, hcases⟩ := createDirs_cons d path above
      have hup : Changes (Path.mayMake d.here (path :: above)) ∅ d d1 := by
        rcases hd1 with rfl | rfl
        · exact Changes.refl _ _ _
        · refine ih.mono ?_ (fun p hp => hp)
          rintro p ⟨up, hup, hp⟩
          exact ⟨up, List.mem_cons_of_mem _ hup, hp⟩
      rcases hcases with ⟨made, hmade, heq⟩ | ⟨heq, -⟩
      · have hlast := createDir_changes (path :: above)
          (List.mem_cons_self ..) hmade
        rw [hup.here] at hlast
        rw [heq]
        exact hup.trans hlast
      · rw [heq]
        exact hup

/-- What has been made is a directory. -/
theorem isDirectory_of_createDirs {above : List String}
    (h : d.createDirs (path :: above) = (d', .ok ())) :
    d'.isDirectory path = true := by
  obtain ⟨d1, -, hcases⟩ := createDirs_cons d path above
  rw [h] at hcases
  rcases hcases with ⟨made, hmade, heq⟩ | ⟨rfl, hdir⟩
  · obtain ⟨p, -, -, -, -, hdir⟩ := createDir_ok hmade
    cases heq
    exact hdir
  · exact hdir rfl

/-- Making a directory and those above it only adds directories. -/
theorem changes_createDirAll (d : Disk) (path : String) :
    Changes (Path.mayMake d.here (Path.ancestors path)) ∅ d
      (d.createDirAll path).1 :=
  changes_createDirs d (Path.ancestors path)

/-- Once directories have been made there is nothing to make for as long as
    directories are kept. -/
theorem createDirAll_again {d'' : Disk}
    (h : d.createDirAll path = (d', .ok ())) (hk : KeepsDirectories d' d'') :
    d''.createDirAll path = (d'', .ok ()) := by
  rw [createDirAll, Path.ancestors, Path.ancestorsUpTo] at h ⊢
  by_cases hp : path = ""
  · rw [if_pos hp]
    rfl
  · rw [if_neg hp] at h ⊢
    have hdir := isDirectory_mono hk (isDirectory_of_createDirs h)
    rw [createDirs, createDir_of_isDirectory hdir]
    exact if_pos hdir

end RiskExchange.Disk
