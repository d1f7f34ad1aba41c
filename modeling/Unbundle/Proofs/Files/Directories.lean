import Unbundle.Proofs.Files.Ancestors
import Unbundle.Proofs.Files.Pave
import Unbundle.Proofs.Files.Reached

/-! The directories of a path, in closed form. Making them comes to making one below the other,
whichever of them were there before. -/

namespace Unbundle.Files
open FileTree (Along)

section Directories
variable {grounds : List FileTree} {home dir loc : Location} {path : Path} {names : List String}
  {name : String} {disk : Disk} {above : List Path}

def Disk.after (disk : Disk) (run : Except Fault Unit × FileTree) : Except Fault Unit × Disk :=
  (run.1, { disk with tree := run.2 })

theorem Path.Leads.isDirectory_iff (h : path.Leads grounds home dir names)
    (hdisk : disk.Over grounds home) (hlinks : Along disk.tree.NoLink dir names)
    (hfault : path.fault? = none) :
    disk.isDirectory path = true ↔ disk.tree.find? (names.reverse ++ dir) = some .directory := by
  constructor
  · intro hdirectory
    unfold Disk.isDirectory at hdirectory
    split at hdirectory
    · next loc hentry =>
      obtain ⟨rfl, hfind⟩ := h.entry_eq_ok hdisk hlinks hentry
      exact hfind
    · cases hdirectory
  · intro hfind
    obtain ⟨ground, hground, hkeeps⟩ := hdisk.keeps
    have hleads : path.Leads [disk.tree] home dir names :=
      h.mono fun tree htree => ⟨ground, hground, List.mem_singleton.1 htree ▸ hkeeps⟩
    have hover : disk.Over [disk.tree] home := hdisk.home ▸ disk.over_self
    have hentry := (hleads.enter (List.forall_mem_singleton.2 hfind)).entry_eq hover hfault
    rw [Disk.isDirectory, hentry]

theorem Path.Leads.lastStep_eq (h : path.Leads grounds home dir (names ++ [name]))
    (hdisk : disk.Over grounds home) (hlinks : Along disk.tree.NoLink dir names)
    (hfault : path.fault? = none) :
    disk.lastStep path = (disk.tree.reach dir names).map (·, some (.into name)) := by
  obtain ⟨left, heq⟩ := h.exists_lastStep_eq hdisk
  have hreach : disk.tree.walk .target left dir (names.map .into ++ [.slash]) =
      disk.tree.reach dir names :=
    FileTree.walk_names_congr (by simp) (hlinks.imp fun _ hlink => ⟨rfl, hlink⟩)
  rw [heq, hfault, hreach]

theorem FileTree.eq_of_reach_ok {tree : FileTree} (hlinks : Along tree.NoLink dir names)
    (h : tree.reach dir names = .ok loc) : loc = names.reverse ++ dir :=
  walk_names_eq (by simp) hlinks h

theorem DiskM.run_makeDirectoryOr {onMissing : DiskM Fault Unit} (hempty : path.isEmpty = false) :
    (makeDirectoryOr path onMissing).run.run disk =
      match (makeDirectory path).run.run disk with
      | (.ok (), made) => (.ok (), made)
      | (.error .notFound, made) => onMissing.run.run made
      | (.error fault, made) =>
        (if made.isDirectory path = true then .ok () else .error fault, made) := by
  unfold makeDirectoryOr
  rw [if_neg (by simp [hempty]), run_tryCatch]
  rcases (makeDirectory path).run.run disk with ⟨result, made⟩
  cases result with
  | ok => rfl
  | error fault => cases fault <;> first | rfl | exact run_unless

theorem Path.Leads.run_makeDirectoryOr (onMissing : DiskM Fault Unit)
    (h : path.Leads grounds home dir (names ++ [name])) (hdisk : disk.Over grounds home)
    (hlinks : Along disk.tree.NoLink dir (names ++ [name])) (hfault : path.fault? = none) :
    (DiskM.makeDirectoryOr path onMissing).run.run disk =
      match disk.tree.reach dir names with
      | .ok _ => disk.after (disk.tree.pave (names.reverse ++ dir) [name])
      | .error .notFound => onMissing.run.run disk
      | .error fault => (.error fault, disk) := by
  have hinit := (FileTree.along_append.1 hlinks).1
  have hmem : Step.into name ∈ path.steps := h.mem_steps
  have hdirectory := h.isDirectory_iff hdisk hlinks hfault
  rw [List.reverse_append, List.reverse_singleton, List.singleton_append, List.cons_append]
    at hdirectory
  rw [DiskM.run_makeDirectoryOr h.isEmpty, DiskM.run_makeDirectory, h.lastStep_eq hdisk hinit hfault]
  cases hreach : disk.tree.reach dir names with
  | error fault =>
    have hnone : disk.isDirectory path = false := by
      refine Bool.eq_false_iff.2 fun htrue => ?_
      rw [FileTree.reach_of_find? (@FileTree.find?_above _ _ [name] (hdirectory.1 htrue))] at hreach
      cases hreach
    cases fault <;> simp [Except.map, hnone]
  | ok loc =>
    obtain rfl := FileTree.eq_of_reach_ok hinit hreach
    have hdir := FileTree.find?_of_reach_ok (h.find? hdisk) hreach
    have hlink := hlinks.last
    simp only [Except.map, FileTree.pave, Disk.after]
    by_cases hsize : maxNameBytes < name.utf8ByteSize
    · have hnone : disk.isDirectory path = false := by
        refine Bool.eq_false_iff.2 fun htrue => ?_
        exact Nat.not_le.2 hsize (FileTree.size_le_of_find? (hdirectory.1 htrue))
      simp [hsize, hnone]
    · have hfile := isFileName_of_mem_steps hmem hfault hsize
      cases hfind : disk.tree.find? (name :: (names.reverse ++ dir)) with
      | none =>
        obtain ⟨made, hmade⟩ := FileTree.exists_put? .directory hdir
          (by simp [hfind]) hfile
        simp [hsize, DiskM.run_put, hmade]
      | some entry =>
        cases entry with
        | file content =>
          have hnone : disk.isDirectory path = false := by
            refine Bool.eq_false_iff.2 fun htrue => ?_
            rw [hdirectory.1 htrue] at hfind
            cases hfind
          simp [hsize, hnone]
        | directory => simp [hsize, hdirectory.2 hfind]
        | link target => exact absurd hfind (hlink target)

theorem Climbs.leads (h : Climbs grounds home dir path names above) :
    path.Leads grounds home dir names := by
  cases h with
  | last leads => exact leads
  | next leads more => exact leads

theorem Climbs.ne_nil (h : Climbs grounds home dir path names above) : names ≠ [] := by
  cases h <;> simp

theorem Disk.Over.pave (h : disk.Over grounds home) (hdir : disk.tree.find? dir = some .directory) :
    Disk.Over (disk.after (disk.tree.pave dir names)).2 grounds home := by
  obtain ⟨ground, hground, hkeeps⟩ := h.keeps
  refine ⟨h.home, ground, hground, fun loc => ?_⟩
  rcases FileTree.find?_pave names hdir loc with hsame | ⟨-, hnone, hmade⟩
  · simpa [Disk.after, hsame] using hkeeps loc
  · refine ⟨fun _ => hmade, fun target hlink => ?_⟩
    rw [(hkeeps loc).2 target hlink] at hnone
    cases hnone

theorem FileTree.NoLink.pave {tree : FileTree} (h : tree.NoLink loc)
    (hdir : tree.find? dir = some .directory) : (tree.pave dir names).2.NoLink loc := by
  intro target hlink
  rcases FileTree.find?_pave names hdir loc with hsame | ⟨-, -, hmade⟩
  · exact h target (hsame ▸ hlink)
  · rw [hmade] at hlink
    cases hlink

theorem Climbs.run_makeDirectoriesBelow (h : Climbs grounds home dir path names above)
    (hdisk : disk.Over grounds home) (hlinks : Along disk.tree.NoLink dir names)
    (hfault : path.fault? = none)
    (habove : ∀ parent ∈ above, parent.steps ≠ [] → parent.fault? = none) :
    (DiskM.makeDirectoriesBelow path above).run.run disk =
      disk.after (disk.tree.pave dir names) := by
  induction h with
  | @last path name above leads =>
    have hleads : path.Leads grounds home dir ([] ++ [name]) := leads
    have hreach : disk.tree.reach dir [] = .ok dir := by
      simp [FileTree.reach, FileTree.walk_slash, FileTree.walk_nil]
    cases above with
    | nil =>
      rw [DiskM.makeDirectoriesBelow, hleads.run_makeDirectoryOr _ hdisk hlinks hfault, hreach]
      rfl
    | cons parent above =>
      rw [DiskM.makeDirectoriesBelow, hleads.run_makeDirectoryOr _ hdisk hlinks hfault, hreach]
      rfl
  | @next path parent names name above leads more ih =>
    have hinit := (FileTree.along_append.1 hlinks).1
    have hdir := leads.find? hdisk
    have hsteps : parent.steps ≠ [] := by
      obtain ⟨steps, hsteps, -⟩ := more.leads.way
      simp [hsteps, more.ne_nil]
    have hparent : parent.fault? = none := habove parent List.mem_cons_self hsteps
    have ih := ih hinit hparent fun other hother => habove other (List.mem_cons_of_mem _ hother)
    rw [DiskM.makeDirectoriesBelow, leads.run_makeDirectoryOr _ hdisk hlinks hfault]
    cases hreach : disk.tree.reach dir names with
    | ok loc => simp only [FileTree.pave_concat, FileTree.pave_of_reach_ok hreach]
    | error fault =>
      cases fault
      case notFound =>
        simp only
        rw [run_bind, ih, FileTree.pave_concat]
        have hne := FileTree.pave_ne_alreadyExists hreach
        have hover := @Disk.Over.pave _ _ _ names _ hdisk hdir
        have hlinks' : Along (disk.tree.pave dir names).2.NoLink dir (names ++ [name]) :=
          hlinks.imp fun _ hlink => hlink.pave hdir
        have hmade := @FileTree.find?_pave_ok disk.tree dir names hdir
        rcases hpave : disk.tree.pave dir names with ⟨result, made⟩
        rw [hpave] at hne hover hlinks' hmade
        cases result with
        | error fault =>
          have hne : fault ≠ .alreadyExists := fun heq => hne (by rw [heq])
          simp [Disk.after, hne]
        | ok =>
          -- the directories above are there now, so that nothing is missing any more
          have hreached := FileTree.reach_of_find? (hmade rfl)
          have hrun := leads.run_makeDirectoryOr (throw .notFound) hover hlinks' hfault
          simp only [Disk.after] at hrun hreached ⊢
          rw [hrun, hreached]
      all_goals
        rw [FileTree.pave_of_reach_error hreach (by simp) hinit]
        rfl

/-- Making the directories of a path, in closed form. -/
theorem Path.Leads.run_makeDirectories (h : path.Leads grounds home dir names) (hne : names ≠ [])
    (hdisk : disk.Over grounds home) (hlinks : Along disk.tree.NoLink dir names)
    (hfault : path.fault? = none) : (DiskM.makeDirectories path).run.run disk =
      disk.after (disk.tree.pave dir names) :=
  (h.climbs hne).run_makeDirectoriesBelow hdisk hlinks hfault fun _ hparent hsteps =>
    fault?_ancestors hparent hfault hsteps

theorem DiskM.run_makeDirectories_of_fault {fault : Fault} (hempty : path.isEmpty = false)
    (hfault : path.fault? = some fault) :
    (makeDirectories path).run.run disk = (.error fault, disk) := by
  have hne : fault ≠ .notFound := by
    have hne := Path.fault?_ne_notFound hempty
    rw [hfault] at hne
    simpa using hne
  have hdirectory : disk.isDirectory path = false := by
    rw [Disk.isDirectory, Disk.entry_of_fault hfault]
  have hmake : (makeDirectory path).run.run disk = (.error fault, disk) := by
    rw [run_makeDirectory]
    unfold Disk.lastStep
    rw [Disk.follow_eq, hfault]
    rfl
  have hor : ∀ onMissing, (makeDirectoryOr path onMissing).run.run disk = (.error fault, disk) := by
    intro onMissing
    rw [run_makeDirectoryOr hempty, hmake]
    cases fault <;> simp_all
  unfold makeDirectories
  cases path.ancestors with
  | nil => exact hor _
  | cons parent above => exact hor _

end Directories

/-- Work that changes no more of a disk than its tree. -/
def DiskM.ChangesTree (work : DiskM Fault Unit) : Prop :=
  ∀ disk, ∃ tree, (work.run.run disk).2 = { disk with tree }

section ChangesTree
variable {work onMissing : DiskM Fault Unit} {next : Unit → DiskM Fault Unit} {path : Path}
  {above : List Path} {fault : Fault}

theorem DiskM.changesTree_throw : ChangesTree (throw fault) := fun disk => ⟨disk.tree, rfl⟩

theorem DiskM.ChangesTree.bind (h : ChangesTree work) (hnext : ∀ a, ChangesTree (next a)) :
    ChangesTree (work >>= next) := by
  intro disk
  obtain ⟨tree, htree⟩ := h disk
  rw [run_bind]
  revert htree
  rcases work.run.run disk with ⟨result, disk'⟩
  rintro rfl
  cases result with
  | error fault => exact ⟨tree, rfl⟩
  | ok a => exact hnext a _

theorem DiskM.changesTree_makeDirectory : ChangesTree (makeDirectory path) := by
  intro disk
  rw [run_makeDirectory]
  split
  · exact ⟨disk.tree, rfl⟩
  · split_ifs
    · exact ⟨disk.tree, rfl⟩
    · exact ⟨disk.tree, rfl⟩
    · rw [run_put]
      split
      · exact ⟨_, rfl⟩
      · exact ⟨disk.tree, rfl⟩
  · exact ⟨disk.tree, rfl⟩

theorem DiskM.ChangesTree.makeDirectoryOr (h : ChangesTree onMissing) :
    ChangesTree (makeDirectoryOr path onMissing) := by
  intro disk
  cases hempty : path.isEmpty with
  | true =>
    unfold DiskM.makeDirectoryOr
    simp only [hempty, if_true]
    exact ⟨disk.tree, rfl⟩
  | false =>
    obtain ⟨tree, htree⟩ := @changesTree_makeDirectory path disk
    rw [run_makeDirectoryOr hempty]
    revert htree
    rcases (makeDirectory path).run.run disk with ⟨result, disk'⟩
    rintro rfl
    cases result with
    | ok => exact ⟨tree, rfl⟩
    | error fault =>
      cases fault
      case notFound => exact h _
      all_goals exact ⟨tree, rfl⟩

theorem DiskM.changesTree_makeDirectories : ChangesTree (makeDirectories path) := by
  have hbelow : ∀ above path, ChangesTree (makeDirectoriesBelow path above) := by
    intro above
    induction above with
    | nil => exact fun path => changesTree_throw.makeDirectoryOr
    | cons parent above ih => exact fun path =>
        ((ih parent).bind fun _ => changesTree_throw.makeDirectoryOr).makeDirectoryOr
  exact hbelow _ _

end ChangesTree

end Unbundle.Files
