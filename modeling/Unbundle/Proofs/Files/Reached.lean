import Unbundle.Proofs.Files.Writes

/-! Paths that lead to what is there: where the last of their names is looked up, and what comes of
asking for a directory that is there already. -/

namespace Unbundle.Files
open FileTree (Along)

section Reached
variable {grounds : List FileTree} {home dir loc : Location} {path : Path} {names : List String}
  {name : String} {disk : Disk} {entry : Entry}

theorem Path.Leads.entryItself_eq_ok (h : path.Leads grounds home dir (names ++ [name]))
    (hdisk : disk.Over grounds home) (hnames : Along disk.tree.NoLink dir (names ++ [name]))
    (hentry : disk.entryItself path = .ok (loc, entry)) :
    loc = name :: (names.reverse ++ dir) := by
  obtain ⟨slashes, hroute, hslashes⟩ := path.exists_route_eq
  unfold Disk.entryItself at hentry
  rw [hroute] at hentry
  cases hfollow : disk.follow path .entry (path.steps ++ slashes) with
  | error fault => simp [hfollow, bind, Except.bind] at hentry
  | ok found =>
    obtain rfl := h.follow_eq_ok hdisk hslashes (Or.inr (by simp)) hnames hfollow
    simp only [hfollow, bind, Except.bind] at hentry
    split at hentry
    · cases hentry
      simp
    · cases hentry

theorem Path.Leads.run_makeDirectory (h : path.Leads grounds home dir [])
    (hdisk : disk.Over grounds home) : (DiskM.makeDirectory path).run.run disk =
      (match path.fault? with
        | some fault => .error fault
        | none => .error .alreadyExists, disk) := by
  obtain ⟨-, steps, hsteps, hway⟩ := h
  rw [List.map_nil, List.append_nil] at hsteps
  subst hsteps
  obtain ⟨ground, hground, hkeeps⟩ := hdisk.keeps
  obtain ⟨left, hway⟩ := hway ground hground
  have hstart : disk.start path = if path.isAbsolute then [] else home := by
    rw [Disk.start, hdisk.home]
  rw [DiskM.run_makeDirectory]
  unfold Disk.lastStep
  rw [Disk.follow_eq, hstart]
  cases path.fault? with
  | some fault => rfl
  | none =>
    rcases List.eq_nil_or_concat path.steps with hnil | ⟨init, last, hlast⟩
    · rw [hnil]
      simp only [List.dropLast_nil, List.nil_append, FileTree.walk_slash, FileTree.walk_nil]
      rfl
    · rw [List.concat_eq_append] at hlast
      rw [hlast] at hway ⊢
      obtain ⟨m, mid, hinit, hrest⟩ := hway.split
      rw [List.dropLast_concat, List.getLast?_concat, (hinit.mono hkeeps).walk (Or.inl rfl),
        FileTree.walk_slash, FileTree.walk_nil]
      cases hrest with
      | here => rfl
      | slash => rfl
      | up => rfl
      | into size found more =>
        have hfound := (hkeeps _).1 found
        simp only [bind, Except.bind]
        rw [if_neg (Nat.not_lt.2 size), hfound]
        rfl
      | link size found more =>
        have hfound := (hkeeps _).2 _ found
        simp only [bind, Except.bind]
        rw [if_neg (Nat.not_lt.2 size), hfound]
        rfl

theorem Path.Leads.entry_eq (h : path.Leads grounds home dir []) (hdisk : disk.Over grounds home)
    (hfault : path.fault? = none) : disk.entry path = .ok (dir, .directory) := by
  obtain ⟨slashes, hroute, hslashes⟩ := path.exists_route_eq
  obtain ⟨steps, hsteps, hwalk⟩ := h.walk
  obtain ⟨left, hwalk⟩ := hwalk disk hdisk
  rw [List.map_nil, List.append_nil] at hsteps
  have hend : disk.tree.walk .target left dir slashes = .ok dir := by
    clear hroute
    induction slashes with
    | nil => exact FileTree.walk_nil
    | cons step slashes ih =>
      obtain ⟨rfl, hmore⟩ := List.forall_mem_cons.1 hslashes
      rw [FileTree.walk_slash, ih hmore]
  unfold Disk.entry
  rw [hroute, hsteps, Disk.follow_eq, hfault]
  simp only [hwalk .target slashes (Or.inl rfl), hend, bind, Except.bind, h.find? hdisk]

theorem Path.Leads.run_makeDirectories_there (h : path.Leads grounds home dir [])
    (hdisk : disk.Over grounds home) (hfault : path.fault? = none) :
    (DiskM.makeDirectories path).run.run disk = (.ok (), disk) := by
  have hempty : path.isEmpty = false := by
    cases hempty : path.isEmpty with
    | false => rfl
    | true =>
      rw [Path.fault?, hempty, if_pos rfl] at hfault
      split_ifs at hfault
  have hor : ∀ onMissing, (DiskM.makeDirectoryOr path onMissing).run.run disk = (.ok (), disk) := by
    intro onMissing
    have hdirectory : disk.isDirectory path = true := by
      rw [Disk.isDirectory, h.entry_eq hdisk hfault]
    unfold DiskM.makeDirectoryOr
    rw [if_neg (by simp [hempty]), run_tryCatch, h.run_makeDirectory hdisk, hfault]
    exact DiskM.run_unless.trans (by rw [if_pos hdirectory])
  unfold DiskM.makeDirectories
  cases path.ancestors with
  | nil => exact hor _
  | cons parent above => exact hor _

end Reached

end Unbundle.Files
