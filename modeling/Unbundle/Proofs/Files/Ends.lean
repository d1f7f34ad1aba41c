import Unbundle.Proofs.Files.Trees

/-! Where walks end. A walk to what a path names, or to where a file is to be written, goes through
directories and links to something that is no link, and in a tree that keeps them all and what is at
the end it goes the same way. -/

namespace Unbundle.Files

namespace FileTree

/-- The steps lead from a directory to a location, by no more links than may be passed. -/
inductive Ends (tree : FileTree) : Nat → Location → List Step → Location → Prop where
  | stop {n dir} : Ends tree n dir [] dir
  | here {n dir rest loc} (more : Ends tree n dir rest loc) : Ends tree n dir (.here :: rest) loc
  | slash {n dir rest loc} (more : Ends tree n dir rest loc) : Ends tree n dir (.slash :: rest) loc
  | up {n dir rest loc} (more : Ends tree n dir.tail rest loc) : Ends tree n dir (.up :: rest) loc
  | into {n dir name rest loc} (size : name.utf8ByteSize ≤ maxNameBytes)
      (found : tree.find? (name :: dir) = some .directory)
      (more : Ends tree n (name :: dir) rest loc) : Ends tree n dir (.into name :: rest) loc
  | link {n dir name target rest loc} (size : name.utf8ByteSize ≤ maxNameBytes)
      (found : tree.find? (name :: dir) = some (.link target))
      (more : Ends tree n (if target.isAbsolute then [] else dir) (target.route ++ rest) loc) :
      Ends tree (n + 1) dir (.into name :: rest) loc
  /-- Nothing is there, or a file. -/
  | last {n dir name} (size : name.utf8ByteSize ≤ maxNameBytes)
      (other : tree.find? (name :: dir) ≠ some .directory) (plain : tree.NoLink (name :: dir)) :
      Ends tree n dir [.into name] (name :: dir)

section Ends
variable {tree small : FileTree} {n : Nat} {dir loc : Location} {steps : List Step} {entry : Entry}
  {purpose : Purpose}

/-- Between two links the steps are taken one by one. -/
theorem ends_of_goOn (hpurpose : purpose ≠ .entry)
    (hgo : ∀ dir steps, tree.goOn purpose n dir steps = .ok loc →
      ∃ m, n = m + 1 ∧ tree.Ends m dir steps loc)
    (h : tree.walk purpose n dir steps = .ok loc) : tree.Ends n dir steps loc := by
  induction steps generalizing dir with
  | nil =>
    rw [walk_nil] at h
    cases h
    exact .stop
  | cons step steps ih =>
    cases step with
    | here => exact .here (ih (walk_here ▸ h))
    | slash => exact .slash (ih (walk_slash ▸ h))
    | up => exact .up (ih (walk_up ▸ h))
    | into name =>
      obtain ⟨hsize, ⟨rfl, rfl, hother, hlink⟩ | ⟨hfound, hmore⟩ | ⟨target, hfound, hmore⟩⟩ :=
        walk_into_cases h
      · exact .last hsize hother (hlink hpurpose)
      · exact .into hsize hfound (ih hmore)
      · obtain ⟨m, rfl, hends⟩ := hgo _ _ hmore
        exact .link hsize hfound hends

theorem ends_of_walk (hpurpose : purpose ≠ .entry)
    (h : tree.walk purpose n dir steps = .ok loc) : tree.Ends n dir steps loc := by
  induction n generalizing dir steps with
  | zero => exact ends_of_goOn hpurpose (fun _ _ h => nomatch h) h
  | succ n ih => exact ends_of_goOn hpurpose (fun _ _ h => ⟨n, rfl, ih h⟩) h

theorem Ends.walk (h : tree.Ends n dir steps loc) : tree.walk .target n dir steps = .ok loc := by
  induction h with
  | stop => exact walk_nil
  | here _ ih => rw [walk_here, ih]
  | slash _ ih => rw [walk_slash, ih]
  | up _ ih => rw [walk_up, ih]
  | into size found _ ih =>
    rw [walk_into, if_neg (by simp), if_neg (Nat.not_lt.2 size), found]
    exact ih
  | link size found _ ih =>
    rw [walk_into, if_neg (by simp), if_neg (Nat.not_lt.2 size), found]
    simpa [enter, goOn] using ih
  | last size _ plain => rw [walk_last plain, if_neg (Nat.not_lt.2 size)]

theorem find?_tail (h : tree.find? dir = some .directory) :
    tree.find? dir.tail = some .directory := by
  cases dir with
  | nil => exact h
  | cons name dir => exact @find?_above tree dir [name] h

theorem Ends.noLink (h : tree.Ends n dir steps loc) (hdir : tree.find? dir = some .directory) :
    tree.NoLink loc := by
  induction h with
  | stop => simp [NoLink, hdir]
  | here _ ih => exact ih hdir
  | slash _ ih => exact ih hdir
  | up _ ih => exact ih (find?_tail hdir)
  | into _ found _ ih => exact ih found
  | link _ _ _ ih =>
    refine ih ?_
    split
    · exact tree.root
    · exact hdir
  | last _ _ plain => exact plain

theorem Ends.mono (h : small.Ends n dir steps loc) (hkeeps : tree.Keeps small)
    (hend : small.find? loc ≠ some .directory → small.NoLink loc →
      tree.find? loc ≠ some .directory ∧ tree.NoLink loc) :
    tree.Ends n dir steps loc := by
  induction h with
  | stop => exact .stop
  | here _ ih => exact .here (ih hend)
  | slash _ ih => exact .slash (ih hend)
  | up _ ih => exact .up (ih hend)
  | into size found _ ih => exact .into size ((hkeeps _).1 found) (ih hend)
  | link size found _ ih => exact .link size ((hkeeps _).2 _ found) (ih hend)
  | last size other plain => exact .last size (hend other plain).1 (hend other plain).2

end Ends

end FileTree

section Entries
variable {d e : Disk} {path : Path} {loc : Location} {entry : Entry} {names : List String}
  {dir : Location}

theorem Disk.entry_of_ends (hfault : path.fault? = none)
    (hends : d.tree.Ends FileTree.maxLinks (d.start path) path.route loc)
    (hfound : d.tree.find? loc = some entry) : d.entry path = .ok (loc, entry) := by
  have hfollow : d.follow path .target path.route = .ok loc := by
    rw [Disk.follow_eq, hfault]
    exact hends.walk
  unfold Disk.entry
  simp only [hfollow, bind, Except.bind, hfound]

theorem Disk.ends_of_follow {purpose : Purpose} (hpurpose : purpose ≠ .entry)
    (h : d.follow path purpose path.route = .ok loc) : path.fault? = none ∧
      d.tree.Ends FileTree.maxLinks (d.start path) path.route loc := by
  rw [Disk.follow_eq] at h
  split at h
  · cases h
  · next hfault => exact ⟨hfault, FileTree.ends_of_walk hpurpose h⟩

theorem Disk.entry_of_keeps (hhome : e.home = d.home) (hkeeps : e.tree.Keeps d.tree)
    (hentry : d.entry path = .ok (loc, entry)) (hsame : e.tree.find? loc = some entry) :
    e.entry path = .ok (loc, entry) := by
  obtain ⟨hfollow, hfound⟩ := Disk.follow_of_entry hentry
  obtain ⟨hfault, hends⟩ := Disk.ends_of_follow (by simp) hfollow
  refine Disk.entry_of_ends hfault ?_ hsame
  rw [Disk.start, hhome]
  exact hends.mono hkeeps fun hother hplain => by
    simpa only [FileTree.NoLink, hsame, hfound] using And.intro hother hplain

theorem Path.Leads.entry_ne_link (h : path.Leads [d.tree] d.home dir names)
    (hentry : d.entry path = .ok (loc, entry)) (target : Path) : entry ≠ .link target := by
  obtain ⟨steps, hsteps, hwalk⟩ := h.walk
  obtain ⟨left, hwalk⟩ := hwalk d d.over_self
  obtain ⟨hfollow, hfind⟩ := Disk.follow_of_entry hentry
  obtain ⟨slashes, hroute, -⟩ := path.exists_route_eq
  rw [hroute, hsteps, Disk.follow_eq, List.append_assoc, hwalk _ _ (Or.inl rfl)] at hfollow
  split at hfollow
  · cases hfollow
  · rintro rfl
    exact (FileTree.ends_of_walk (by simp) hfollow).noLink (h.find? d.over_self) target hfind

end Entries

end Unbundle.Files
