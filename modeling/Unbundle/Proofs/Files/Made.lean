import Unbundle.Proofs.Files.Deeds

/-! Directories made for a path of any spelling, whatever it leads through and whether or not any of
it is there. Nothing is changed but that directories appear that were missing, each of which the
path names or one of those above it; and the path names a directory when all went well. -/

namespace Unbundle.Files

section Entries
variable {path : Path} {disk disk' : Disk} {loc dir : Location} {name : String}

theorem Path.fault?_of_entry {entry : Entry} (h : disk.entry path = .ok (loc, entry)) :
    path.fault? = none := by
  have hfollow := (Disk.follow_of_entry h).1
  rw [Disk.follow_eq] at hfollow
  split at hfollow
  · cases hfollow
  · next hfault => exact hfault

theorem Path.leads_of_entry_directory (h : disk.entry path = .ok (loc, .directory)) :
    path.Leads [disk.tree] disk.home loc [] :=
  Path.leads_of_entry (List.forall_mem_singleton.2 h)

theorem Disk.entry_directory_of_keeps (h : disk.entry path = .ok (loc, .directory))
    (hhome : disk'.home = disk.home) (hkeeps : disk'.tree.Keeps disk.tree) :
    disk'.entry path = .ok (loc, .directory) := by
  have hleads : path.Leads [disk'.tree] disk.home loc [] :=
    (Path.leads_of_entry_directory h).mono fun tree htree =>
      ⟨disk.tree, List.mem_singleton_self _, List.mem_singleton.1 htree ▸ hkeeps⟩
  exact hleads.entry_eq (hhome ▸ disk'.over_self) (Path.fault?_of_entry h)

theorem Disk.exists_of_isDirectory (h : disk.isDirectory path = true) :
    ∃ loc, disk.entry path = .ok (loc, .directory) := by
  unfold isDirectory at h
  split at h
  · next loc hentry => exact ⟨loc, hentry⟩
  · cases h

theorem Disk.isFile_of_entry {loc : Location} {content : ByteArray}
    (h : disk.entry path = .ok (loc, .file content)) : disk.isFile path = true := by
  rw [isFile, h]

theorem Disk.exists_of_isFile (h : disk.isFile path = true) :
    ∃ loc content, disk.entry path = .ok (loc, .file content) := by
  unfold isFile at h
  split at h
  · next loc content hentry => exact ⟨loc, content, hentry⟩
  · cases h

theorem Path.leads_of_lastStep (h : disk.lastStep path = .ok (dir, some (.into name)))
    (hdir : disk.tree.find? dir = some .directory) :
    path.fault? = none ∧ path.Leads [disk.tree] disk.home dir [name] := by
  unfold Disk.lastStep at h
  rw [Disk.follow_eq] at h
  cases hfault : path.fault? with
  | some fault => simp [hfault, bind, Except.bind] at h
  | none =>
    cases hwalk : disk.tree.walk .target FileTree.maxLinks (disk.start path)
        (path.steps.dropLast ++ [.slash]) with
    | error fault => simp [hfault, hwalk, bind, Except.bind] at h
    | ok above =>
      simp only [hfault, hwalk, bind, Except.bind, Except.ok.injEq, Prod.mk.injEq] at h
      obtain ⟨rfl, hlast⟩ := h
      obtain ⟨_, hway⟩ := FileTree.way_of_walk hdir hwalk
      obtain ⟨left, mid, hway, hrest⟩ := hway.split
      obtain rfl := hrest.eq_of_slashes (by simp)
      refine ⟨rfl, List.forall_mem_singleton.2 hdir, path.steps.dropLast, ?_,
        List.forall_mem_singleton.2 ⟨left, hway⟩⟩
      exact (List.dropLast_append_getLast? _ hlast).symm

end Entries

/-- Nothing has become of a disk but that directories are there which were missing, each named by
one of some paths. -/
structure Made (paths : List Path) (disk disk' : Disk) : Prop where
  home : disk'.home = disk.home
  written : disk'.written = disk.written
  tree : ∀ loc, disk'.tree.find? loc = disk.tree.find? loc ∨
    (disk.tree.find? loc = none ∧ disk'.tree.find? loc = some .directory ∧
      ∃ path ∈ paths, disk'.entry path = .ok (loc, .directory))

section Made
variable {paths wide : List Path} {path : Path} {disk disk' disk'' : Disk} {loc : Location}

theorem Made.refl (paths : List Path) (disk : Disk) : Made paths disk disk :=
  ⟨rfl, rfl, fun _ => .inl rfl⟩

theorem Made.keeps (h : Made paths disk disk') : disk'.tree.Keeps disk.tree := by
  intro loc
  rcases h.tree loc with hsame | ⟨hnone, hmade, -⟩
  · simp [hsame]
  · simp [hnone]

theorem Made.noLink (h : Made paths disk disk') (hlink : disk.tree.NoLink loc) :
    disk'.tree.NoLink loc := by
  intro target hfind
  rcases h.tree loc with hsame | ⟨-, hmade, -⟩
  · exact hlink target (hsame ▸ hfind)
  · rw [hmade] at hfind
    cases hfind

theorem Made.mono (h : Made paths disk disk') (hwide : ∀ path ∈ paths, path ∈ wide) :
    Made wide disk disk' :=
  ⟨h.home, h.written, fun loc => (h.tree loc).imp_right fun ⟨hnone, hmade, path, hpath, hentry⟩ =>
    ⟨hnone, hmade, path, hwide path hpath, hentry⟩⟩

theorem Made.trans (h : Made paths disk disk') (h' : Made paths disk' disk'') :
    Made paths disk disk'' := by
  refine ⟨h'.home.trans h.home, h'.written.trans h.written, fun loc => ?_⟩
  rcases h'.tree loc with hsame | ⟨hnone, hmade, hnamed⟩
  · rcases h.tree loc with hsame' | ⟨hnone, hmade, path, hpath, hentry⟩
    · exact .inl (hsame.trans hsame')
    · exact .inr ⟨hnone, hsame.trans hmade, path, hpath,
        Disk.entry_directory_of_keeps hentry h'.home h'.keeps⟩
  · rcases h.tree loc with hsame' | ⟨-, hmade', -⟩
    · exact .inr ⟨hsame'.symm.trans hnone, hmade, hnamed⟩
    · rw [hmade'] at hnone
      cases hnone

end Made

namespace DiskM

/-- Work that does no more than to make directories which some paths name. -/
def Makes (paths : List Path) (work : DiskM Fault Unit) : Prop :=
  ∀ disk, Made paths disk (work.run.run disk).2

/-- Work that does not succeed unless a path names a directory then. -/
def Ensures (path : Path) (work : DiskM Fault Unit) : Prop :=
  ∀ disk disk', work.run.run disk = (.ok (), disk') → disk'.isDirectory path = true

section Makes
variable {paths : List Path} {path : Path} {disk disk' : Disk} {loc : Location} {fault : Fault}
  {work next onMissing : DiskM Fault Unit}

theorem makes_throw : Makes paths (throw fault) := fun disk => .refl paths disk

theorem ensures_throw : Ensures path (throw fault) := fun _ _ h => nomatch h

theorem Makes.bind (h : Makes paths work) (hnext : Makes paths next) :
    Makes paths (work >>= fun _ => next) := by
  intro disk
  have hmade := h disk
  rw [run_bind]
  revert hmade
  rcases work.run.run disk with ⟨result, disk'⟩
  intro hmade
  cases result with
  | error fault => exact hmade
  | ok => exact hmade.trans (hnext disk')

theorem Ensures.bind (hnext : Ensures path next) : Ensures path (work >>= fun _ => next) := by
  intro disk disk' hrun
  rw [run_bind] at hrun
  revert hrun
  rcases work.run.run disk with ⟨result, made⟩
  intro hrun
  cases result with
  | error fault => cases hrun
  | ok => exact hnext made disk' hrun

theorem made_put {dir : Location} {name : String} {tree : FileTree}
    (hlast : disk.lastStep path = .ok (dir, some (.into name)))
    (hnone : disk.tree.find? (name :: dir) = none)
    (hput : disk.tree.put? (name :: dir) .directory = some tree) :
    ({ disk with tree } : Disk).isDirectory path = true ∧ Made [path] disk { disk with tree } := by
  have hfind := FileTree.find?_put? hput
  have hdir : disk.tree.find? dir = some .directory := by
    by_contra hdir
    simp [FileTree.put?, hdir] at hput
  have hkeeps : tree.Keeps disk.tree := by
    intro loc
    rw [hfind]
    split
    · next heq => simp [← heq, hnone]
    · simp
  obtain ⟨hfault, hleads⟩ := Path.leads_of_lastStep hlast hdir
  have hthere : path.Leads [tree] disk.home ([name].reverse ++ dir) [] :=
    (hleads.mono fun other hother => ⟨disk.tree, List.mem_singleton_self _,
      List.mem_singleton.1 hother ▸ hkeeps⟩).enter
      (List.forall_mem_singleton.2 ((hfind _).trans (if_pos rfl)))
  have hentry : Disk.entry { disk with tree } path = .ok (name :: dir, .directory) :=
    hthere.entry_eq (Disk.over_self { disk with tree }) hfault
  refine ⟨by rw [Disk.isDirectory, hentry], rfl, rfl, fun loc => ?_⟩
  by_cases heq : name :: dir = loc
  · subst heq
    exact .inr ⟨hnone, (hfind _).trans (if_pos rfl), path, List.mem_singleton_self _, hentry⟩
  · exact .inl ((hfind loc).trans (if_neg heq))

/-- A single directory: it is put where nothing is, and the path names it then; or nothing happens.
-/
theorem run_makeDirectory_cases : (∃ fault, (makeDirectory path).run.run disk = (.error fault, disk)) ∨
    ∃ made, (makeDirectory path).run.run disk = (.ok (), made) ∧ made.isDirectory path = true ∧
      Made [path] disk made := by
  rw [run_makeDirectory]
  split
  · exact .inl ⟨_, rfl⟩
  · next dir name hlast =>
    split
    · exact .inl ⟨_, rfl⟩
    · split
      · exact .inl ⟨_, rfl⟩
      · next hsome =>
        rw [run_put]
        cases hput : disk.tree.put? (name :: dir) .directory with
        | none => exact .inl ⟨_, rfl⟩
        | some tree => exact .inr ⟨_, rfl, made_put hlast (by simpa using hsome) hput⟩
  · exact .inl ⟨_, rfl⟩

theorem Makes.makeDirectoryOr (h : Makes paths onMissing) (hpath : path ∈ paths) :
    Makes paths (makeDirectoryOr path onMissing) := by
  intro disk
  cases hempty : path.isEmpty with
  | true =>
    unfold DiskM.makeDirectoryOr
    simp only [hempty, if_true]
    exact .refl paths disk
  | false =>
    rw [run_makeDirectoryOr hempty]
    rcases @run_makeDirectory_cases path disk with ⟨fault, hrun⟩ | ⟨made, hrun, -, hmade⟩
    · rw [hrun]
      cases fault
      case notFound => exact h disk
      all_goals exact .refl paths disk
    · rw [hrun]
      exact hmade.mono (List.forall_mem_singleton.2 hpath)

theorem Ensures.makeDirectoryOr (h : Ensures path onMissing) (hempty : path.isEmpty = false) :
    Ensures path (makeDirectoryOr path onMissing) := by
  intro disk disk' hrun
  rw [run_makeDirectoryOr hempty] at hrun
  rcases @run_makeDirectory_cases path disk with ⟨fault, hmake⟩ | ⟨made, hmake, hdirectory, -⟩
  · rw [hmake] at hrun
    have hother : (if disk.isDirectory path = true then Except.ok () else .error fault, disk) =
        (.ok (), disk') → disk'.isDirectory path = true := by
      intro heq
      split at heq
      · next hdirectory =>
        cases heq
        exact hdirectory
      · cases heq
    cases fault
    case notFound => exact h disk disk' hrun
    all_goals exact hother hrun
  · rw [hmake] at hrun
    cases hrun
    exact hdirectory

theorem makes_makeDirectoriesBelow {above : List Path} (h : ∀ other ∈ path :: above, other ∈ paths) :
    Makes paths (makeDirectoriesBelow path above) := by
  induction above generalizing path with
  | nil => exact makes_throw.makeDirectoryOr (h path List.mem_cons_self)
  | cons parent above ih =>
    obtain ⟨hpath, habove⟩ := List.forall_mem_cons.1 h
    exact ((ih habove).bind (makes_throw.makeDirectoryOr hpath)).makeDirectoryOr hpath

theorem makes_makeDirectories : Makes (path :: path.ancestors) (makeDirectories path) :=
  makes_makeDirectoriesBelow fun _ => id

theorem ensures_makeDirectories (hempty : path.isEmpty = false) :
    Ensures path (makeDirectories path) := by
  unfold makeDirectories
  cases path.ancestors with
  | nil => exact ensures_throw.makeDirectoryOr hempty
  | cons parent above =>
    exact ((ensures_throw.makeDirectoryOr hempty).bind).makeDirectoryOr hempty

end Makes

end DiskM

end Unbundle.Files
