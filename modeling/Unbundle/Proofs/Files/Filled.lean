import Unbundle.Proofs.Files.Made
import Unbundle.Proofs.Files.Settled
import Unbundle.Proofs.Text.Encoding

/-! Work that does no more than to make directories and to write files, by paths of any spelling and
through any links. The tree grows by it, and a file is either one of those that were opened or as it
was before. So a path that was written to names what was written, and goes on to name that file. -/

namespace Unbundle.Files

/-- Directories were made and files written, those of `opened`, the latest first. -/
structure Filled (opened : List Location) (disk disk' : Disk) : Prop where
  home : disk'.home = disk.home
  written : disk'.written = opened ++ disk.written
  grows : Grows disk.tree disk'.tree
  files : ∀ loc ∈ opened, ∃ content, disk'.tree.find? loc = some (.file content)
  others : ∀ loc ∉ opened, ∀ content, disk'.tree.find? loc = some (.file content) →
    disk.tree.find? loc = some (.file content)

/-- The working directory is there. -/
def Disk.Homed (disk : Disk) : Prop := disk.tree.find? disk.home = some .directory

section Filled
variable {opened more : List Location} {disk disk' disk'' : Disk} {path : Path} {paths : List Path}
  {loc : Location} {content : ByteArray} {entry : Entry}

theorem Filled.refl (disk : Disk) : Filled [] disk disk :=
  ⟨rfl, rfl, .refl _, List.forall_mem_nil _, fun _ _ _ h => h⟩

theorem Filled.trans (h : Filled opened disk disk') (h' : Filled more disk' disk'') :
    Filled (more ++ opened) disk disk'' where
  home := h'.home.trans h.home
  written := by rw [h'.written, h.written, List.append_assoc]
  grows := h.grows.trans h'.grows
  files loc hloc := by
    rcases List.mem_append.1 hloc with hmore | hopened
    · exact h'.files loc hmore
    · obtain ⟨content, hcontent⟩ := h.files loc hopened
      exact h'.grows.files hcontent
  others loc hloc content hfile := by
    rw [List.mem_append, not_or] at hloc
    exact h.others loc hloc.2 content (h'.others loc hloc.1 content hfile)

theorem Filled.homed (h : Filled opened disk disk') (hhome : disk.Homed) : disk'.Homed := by
  rw [Disk.Homed, h.home]
  exact (h.grows.keeps _).1 hhome

theorem Made.filled (h : Made paths disk disk') : Filled [] disk disk' where
  home := h.home
  written := h.written
  grows := by
    refine ⟨h.keeps, fun {loc content} hfile => ⟨content, ?_⟩⟩
    rcases h.tree loc with hsame | ⟨hnone, -⟩
    · rw [hsame, hfile]
    · simp [hnone] at hfile
  files _ hloc := nomatch hloc
  others loc _ content hfile := by
    rcases h.tree loc with hsame | ⟨-, hmade, -⟩
    · rwa [hsame] at hfile
    · simp [hmade] at hfile

theorem Filled.exists_entry (h : Filled opened disk disk')
    (hentry : disk.entry path = .ok (loc, .file content)) :
    ∃ other, disk'.entry path = .ok (loc, .file other) := by
  obtain ⟨hfollow, hfound⟩ := Disk.follow_of_entry hentry
  obtain ⟨hfault, hends⟩ := Disk.ends_of_follow (by simp) hfollow
  obtain ⟨other, hother⟩ := h.grows.files hfound
  have hstart : disk'.start path = disk.start path := by rw [Disk.start, Disk.start, h.home]
  refine ⟨other, Disk.entry_of_ends hfault ?_ hother⟩
  rw [hstart]
  exact hends.mono h.grows.keeps fun _ _ => by simp [FileTree.NoLink, hother]

theorem Disk.follow_of_target (h : disk.target path = .ok loc) :
    disk.follow path .writing path.route = .ok loc := by
  unfold Disk.target at h
  cases hfollow : disk.follow path .writing path.route with
  | error fault => simp [hfollow, bind, Except.bind] at h
  | ok found =>
    simp only [hfollow, bind, Except.bind] at h
    split at h
    · cases h
    · exact h

theorem Disk.Homed.start (h : disk.Homed) (path : Path) :
    disk.tree.find? (disk.start path) = some .directory := by
  unfold Disk.start
  split
  · exact disk.tree.root
  · exact h

theorem Filled.put {tree : FileTree} (hput : disk.tree.put? loc (.file content) = some tree)
    (hlink : disk.tree.NoLink loc) :
    Filled [loc] disk { disk with tree, written := loc :: disk.written } where
  home := rfl
  written := rfl
  grows := FileTree.grows_put? hput hlink (FileTree.find?_ne_directory_of_put? hput)
  files := List.forall_mem_singleton.2 ⟨content, (FileTree.find?_put? hput _).trans (if_pos rfl)⟩
  others other hother old hfile := by
    have hne : loc ≠ other := fun heq => hother (List.mem_singleton.2 heq.symm)
    rwa [FileTree.find?_put? hput, if_neg hne] at hfile

theorem exists_put?_of_run_writeBytes
    (hrun : (DiskM.writeBytes path content).run.run disk = (.ok (), disk')) :
    ∃ loc tree, disk.target path = .ok loc ∧ disk.tree.put? loc (.file content) = some tree ∧
      disk' = { disk with tree, written := loc :: disk.written } := by
  rw [DiskM.run_writeBytes] at hrun
  cases htarget : disk.target path with
  | error fault =>
    rw [htarget] at hrun
    cases hrun
  | ok loc =>
    rw [htarget] at hrun
    cases hput : disk.tree.put? loc (.file content) with
    | none =>
      simp only [hput] at hrun
      cases hrun
    | some tree =>
      simp only [hput] at hrun
      exact ⟨loc, tree, rfl, hput, (Prod.mk.inj hrun).2.symm⟩

theorem exists_of_run_writeBytes (hhome : disk.Homed)
    (hrun : (DiskM.writeBytes path content).run.run disk = (.ok (), disk')) :
    ∃ loc, Filled [loc] disk disk' ∧ disk'.entry path = .ok (loc, .file content) := by
  obtain ⟨loc, tree, htarget, hput, rfl⟩ := exists_put?_of_run_writeBytes hrun
  obtain ⟨hfault, hends⟩ := Disk.ends_of_follow (by simp) (Disk.follow_of_target htarget)
  have hfilled := Filled.put hput (hends.noLink (hhome.start path))
  have hthere : tree.find? loc = some (.file content) :=
    (FileTree.find?_put? hput loc).trans (if_pos rfl)
  refine ⟨loc, hfilled, Disk.entry_of_ends hfault ?_ hthere⟩
  exact hends.mono hfilled.grows.keeps fun _ _ => by simp [FileTree.NoLink, hthere]

end Filled

/-- Whether it succeeds or fails, the work makes directories and writes files and nothing else. -/
def Fills {α : Type} (work : Work α) : Prop :=
  ∀ disk : Disk, disk.Homed → ∃ opened, Filled opened disk (work.run.run disk).2

section Fills
variable {α β : Type} {work : Work α} {next : α → Work β} {disk disk' : Disk} {path : Path}
  {text : String} {opened : List Location}

theorem fills_pure (a : α) : Fills (pure a : Work α) := fun disk _ => ⟨[], .refl disk⟩

theorem Fills.bind (h : Fills work) (hnext : ∀ a, Fills (next a)) : Fills (work >>= next) := by
  intro disk hhome
  obtain ⟨opened, hfilled⟩ := h disk hhome
  rw [run_bind]
  revert hfilled
  rcases work.run.run disk with ⟨result, middle⟩
  intro hfilled
  cases result with
  | error failure => exact ⟨opened, hfilled⟩
  | ok a =>
    obtain ⟨more, hmore⟩ := hnext a middle (hfilled.homed hhome)
    exact ⟨more ++ opened, hfilled.trans hmore⟩

theorem Fills.forM {list : List α} {each : α → Work Unit} (h : ∀ a, Fills (each a)) :
    Fills (list.forM each) := by
  induction list with
  | nil => exact fills_pure ()
  | cons a list ih => exact (h a).bind fun _ => ih

theorem fills_makeDirectories : Fills (Work.makeDirectories path) := by
  intro disk _
  have hstate : ((Work.makeDirectories path).run.run disk).2 =
      ((DiskM.makeDirectories path).run.run disk).2 := rfl
  have hmade : Made (path :: path.ancestors) disk ((DiskM.makeDirectories path).run.run disk).2 :=
    DiskM.makes_makeDirectories disk
  rw [hstate]
  exact ⟨[], hmade.filled⟩

theorem run_writeText (hhome : disk.Homed)
    (hrun : (Work.writeText path text).run.run disk = (.ok (), disk')) :
    ∃ loc, Filled [loc] disk disk' ∧ disk'.entry path = .ok (loc, .file text.toUTF8) := by
  have hwrite : (DiskM.writeBytes path text.toUTF8).run.run disk = (.ok (), disk') :=
    run_of_run_adapt hrun
  exact exists_of_run_writeBytes hhome hwrite

theorem fills_writeText : Fills (Work.writeText path text) := by
  intro disk hhome
  have hstate : ((Work.writeText path text).run.run disk).2 =
      ((DiskM.writeBytes path text.toUTF8).run.run disk).2 := rfl
  rw [hstate]
  rcases hrun : (DiskM.writeBytes path text.toUTF8).run.run disk with ⟨result, disk'⟩
  cases result with
  | error fault =>
    -- a file that cannot be written is not even emptied
    obtain rfl : disk = disk' := by
      rw [DiskM.run_writeBytes] at hrun
      split at hrun
      · exact (Prod.mk.inj hrun).2
      · split at hrun
        · cases hrun
        · exact (Prod.mk.inj hrun).2
    exact ⟨[], .refl disk⟩
  | ok =>
    obtain ⟨loc, hfilled, -⟩ := exists_of_run_writeBytes hhome hrun
    exact ⟨[loc], hfilled⟩

theorem Fills.exists_filled (h : Fills work) (hhome : disk.Homed) {result}
    (hrun : work.run.run disk = (result, disk')) : ∃ opened, Filled opened disk disk' := by
  have hfilled := h disk hhome
  rwa [hrun] at hfilled

theorem Disk.readText_of_entry {loc : Location}
    (hentry : disk.entry path = .ok (loc, .file text.toUTF8)) : disk.readText path = .ok text := by
  have hdecoded : String.fromUTF8? text.toUTF8 = some text := Text.fromUTF8?_eq_some.2 rfl
  unfold Disk.readText Disk.readBytes
  simp only [hentry, bind, Except.bind, hdecoded]

end Fills

end Unbundle.Files
