import Unbundle.Proofs.Build.SlashedExtension
import Unbundle.Proofs.Files.Cleared

/-! How a build comes to its output root, in closed form. Where the path of the root leads on
through plain names from a directory that stays, the directories are made one below the other, and a
clean build takes the root away before. What the stages do then stays below the root. -/

namespace Unbundle.Build
open Unbundle.Files
open Unbundle.Files.FileTree (Along Passed)

/-- What is spared of a tree when the output root is made: a clean build takes the root away. -/
def Setup.spared (setup : Setup) (output : Location) (tree : FileTree) : FileTree :=
  if setup.settings.clean then tree.erase output else tree

/-- The path of the output root leads on through plain names from a directory that is spared. -/
structure Setup.Approach (setup : Setup) (home base : Location) (names : List String)
    (name : String) (tree : FileTree) : Prop where
  leads : setup.settings.outputRoot.Leads [setup.spared (name :: (names.reverse ++ base)) tree]
    home base (names ++ [name])
  plain : Along tree.NoLink base (names ++ [name])

section Made
variable {setup : Setup} {home base loc : Location} {names : List String} {name : String}
  {tree : FileTree} {written : List Location} {fault : Fault} {ready : Disk}

theorem run_workMakeDirectories {path : Files.Path} {disk : Disk} :
    (Work.makeDirectories path).run.run disk =
      (((DiskM.makeDirectories path).run.run disk).1.mapError (.io path),
        ((DiskM.makeDirectories path).run.run disk).2) := rfl

theorem Setup.run_makeOutputRoot_of_not {disk : Disk}
    (h : setup.settings.clean = true → disk.pathExists setup.settings.outputRoot = false) :
    setup.makeOutputRoot.run.run disk =
      (Work.makeDirectories setup.settings.outputRoot).run.run disk := by
  have hskip : (setup.settings.clean && disk.pathExists setup.settings.outputRoot) = false := by
    cases hclean : setup.settings.clean with
    | false => rfl
    | true => rw [h hclean, Bool.and_false]
  unfold makeOutputRoot
  simp only
  rw [run_bind, run_get]
  simp only
  rw [hskip]
  rfl

theorem Setup.run_makeOutputRoot_of_exists {disk : Disk} (hclean : setup.settings.clean = true)
    (h : disk.pathExists setup.settings.outputRoot = true) :
    setup.makeOutputRoot.run.run disk =
      match (DiskM.removeAll setup.settings.outputRoot).run.run disk with
      | (.ok (), spared) => (Work.makeDirectories setup.settings.outputRoot).run.run spared
      | (.error fault, spared) => (.error (.io setup.settings.outputRoot fault), spared) := by
  have hremove : (setup.settings.clean && disk.pathExists setup.settings.outputRoot) = true := by
    rw [hclean, h]
    rfl
  unfold makeOutputRoot
  simp only
  rw [run_bind, run_get]
  simp only
  rw [hremove, if_pos rfl, run_bind]
  unfold Work.at
  rw [run_adapt]
  rcases (DiskM.removeAll setup.settings.outputRoot).run.run disk with ⟨result, spared⟩
  cases result <;> rfl

theorem Setup.spared_keeps {output : Location} (hne : output ≠ []) :
    tree.Keeps (setup.spared output tree) := by
  unfold spared
  split
  · exact FileTree.keeps_erase hne
  · exact fun _ => ⟨id, fun _ => id⟩

namespace Setup.Approach

theorem isEmpty (h : setup.Approach home base names name tree) :
    setup.settings.outputRoot.isEmpty = false :=
  h.leads.isEmpty

theorem leads_whole (h : setup.Approach home base names name tree) :
    setup.settings.outputRoot.Leads [tree] home base (names ++ [name]) :=
  h.leads.mono fun other hother => ⟨_, List.mem_singleton_self _,
    List.mem_singleton.1 hother ▸ Setup.spared_keeps (by simp)⟩

theorem over_whole : Disk.Over { home, tree, written } [tree] home := Disk.over_self _

theorem along_spared (h : setup.Approach home base names name tree) :
    Along (setup.spared (name :: (names.reverse ++ base)) tree).NoLink base (names ++ [name]) :=
  h.plain.imp fun loc hlink target hfind =>
    hlink target ((Setup.spared_keeps (by simp) loc).2 target hfind)

theorem run_of_fault (h : setup.Approach home base names name tree)
    (hfault : setup.settings.outputRoot.fault? = some fault) :
    setup.makeOutputRoot.run.run { home, tree, written } =
      (.error (.io setup.settings.outputRoot fault), { home, tree, written }) := by
  have hmissing : Disk.pathExists { home, tree, written } setup.settings.outputRoot = false := by
    rw [Disk.pathExists, Disk.entry_of_fault hfault]
    rfl
  rw [Setup.run_makeOutputRoot_of_not fun _ => hmissing, run_workMakeDirectories,
    DiskM.run_makeDirectories_of_fault h.isEmpty hfault]
  rfl

theorem entry_whole (h : setup.Approach home base names name tree)
    (hfault : setup.settings.outputRoot.fault? = none)
    (hfound : tree.find? (name :: (names.reverse ++ base)) = some .directory) :
    Disk.entry { home, tree, written } setup.settings.outputRoot =
      .ok (name :: (names.reverse ++ base), .directory) := by
  have hthere := h.leads_whole.enter (List.forall_mem_singleton.2 (by simpa using hfound))
  simpa using hthere.entry_eq over_whole hfault

theorem exists_run_of_file (h : setup.Approach home base names name tree)
    (hclean : setup.settings.clean = true) {content : ByteArray}
    (hfile : tree.find? (name :: (names.reverse ++ base)) = some (.file content)) :
    ∃ failure, setup.makeOutputRoot.run.run { home, tree, written } =
      (.error failure, { home, tree, written }) := by
  cases hexists : Disk.pathExists { home, tree, written } setup.settings.outputRoot with
  | true =>
    obtain ⟨fault, hremove⟩ := h.leads_whole.exists_run_removeAll_error over_whole h.plain hfile
    rw [Setup.run_makeOutputRoot_of_exists hclean hexists, hremove]
    exact ⟨_, rfl⟩
  | false =>
    cases hfault : setup.settings.outputRoot.fault? with
    | some fault => exact ⟨_, h.run_of_fault hfault⟩
    | none =>
      rw [Setup.run_makeOutputRoot_of_not fun _ => hexists, run_workMakeDirectories,
        h.leads_whole.run_makeDirectories (by simp) over_whole h.plain hfault,
        FileTree.pave_of_file hfile]
      exact ⟨_, rfl⟩

/-- Unless the path has a fault or a file is in the way of a clean build, the directories are made
one below the other in what is spared. -/
theorem run_makeOutputRoot (h : setup.Approach home base names name tree)
    (hfault : setup.settings.outputRoot.fault? = none)
    (hopen : setup.settings.clean = true → tree.Open (name :: (names.reverse ++ base))) :
    setup.makeOutputRoot.run.run { home, tree, written } =
      (let made := (setup.spared (name :: (names.reverse ++ base)) tree).pave base (names ++ [name])
      (made.1.mapError (.io setup.settings.outputRoot), { home, tree := made.2, written })) := by
  have hne : name :: (names.reverse ++ base) ≠ [] := by simp
  have hmake : (Work.makeDirectories setup.settings.outputRoot).run.run
      { home, tree := setup.spared (name :: (names.reverse ++ base)) tree, written } =
      (let made := (setup.spared (name :: (names.reverse ++ base)) tree).pave base (names ++ [name])
      (made.1.mapError (.io setup.settings.outputRoot), { home, tree := made.2, written })) := by
    rw [run_workMakeDirectories, h.leads.run_makeDirectories (by simp) over_whole
      h.along_spared hfault]
    rfl
  rw [← hmake]
  cases hclean : setup.settings.clean with
  | false =>
    have hspared : setup.spared (name :: (names.reverse ++ base)) tree = tree := by
      rw [Setup.spared, hclean]
      rfl
    rw [hspared, Setup.run_makeOutputRoot_of_not fun htrue => by
      rw [hclean] at htrue
      cases htrue]
  | true =>
    have hspared : setup.spared (name :: (names.reverse ++ base)) tree =
        tree.erase (name :: (names.reverse ++ base)) := by
      rw [Setup.spared, hclean]
      rfl
    rcases hopen hclean with hnone | hfound
    · have hmissing : Disk.pathExists { home, tree, written } setup.settings.outputRoot = false :=
        h.leads_whole.pathExists_eq_false over_whole h.plain (by simpa using hnone)
      rw [hspared, FileTree.erase_of_find?_none hne hnone,
        Setup.run_makeOutputRoot_of_not fun _ => hmissing]
    · have hremove := @Path.Leads.run_removeAll { home, tree, written } _ _ _ _ (hspared ▸ h.leads)
        (FileTree.along_append.1 h.plain).1 hfault hfound
      have hexists : Disk.pathExists { home, tree, written } setup.settings.outputRoot = true := by
        rw [Disk.pathExists, h.entry_whole hfault hfound]
        rfl
      rw [Setup.run_makeOutputRoot_of_exists hclean hexists, hremove, hspared]

theorem of_ok (h : setup.Approach home base names name tree)
    (hmake : setup.makeOutputRoot.run.run { home, tree, written } = (.ok (), ready)) :
    setup.settings.outputRoot.fault? = none ∧
      (setup.settings.clean = true → tree.Open (name :: (names.reverse ++ base))) ∧
      (let made := (setup.spared (name :: (names.reverse ++ base)) tree).pave base (names ++ [name])
      made.1 = .ok () ∧ ready = { home, tree := made.2, written }) := by
  cases hfault : setup.settings.outputRoot.fault? with
  | some fault =>
    rw [h.run_of_fault hfault] at hmake
    cases (Prod.mk.inj hmake).1
  | none =>
    have hopen : setup.settings.clean = true → tree.Open (name :: (names.reverse ++ base)) := by
      intro hclean
      by_cases hfound : tree.find? (name :: (names.reverse ++ base)) = some .directory
      · exact .inr hfound
      · refine .inl ((h.plain.last.free hfound).resolve_right fun ⟨content, hfile⟩ => ?_)
        obtain ⟨failure, hrun⟩ := h.exists_run_of_file hclean hfile
        rw [hrun] at hmake
        cases (Prod.mk.inj hmake).1
    rw [h.run_makeOutputRoot hfault hopen] at hmake
    obtain ⟨hresult, rfl⟩ := Prod.mk.inj hmake
    refine ⟨rfl, hopen, ?_, rfl⟩
    cases hmade : ((setup.spared (name :: (names.reverse ++ base)) tree).pave base
        (names ++ [name])).1 with
    | ok => rfl
    | error fault =>
      rw [hmade] at hresult
      cases hresult

theorem find?_base (h : setup.Approach home base names name tree) :
    (setup.spared (name :: (names.reverse ++ base)) tree).find? base = some .directory :=
  h.leads.found _ (List.mem_singleton_self _)

theorem entry_of_ok (h : setup.Approach home base names name tree)
    (hmake : setup.makeOutputRoot.run.run { home, tree, written } = (.ok (), ready)) :
    ready.entry setup.settings.outputRoot = .ok (name :: (names.reverse ++ base), .directory) := by
  obtain ⟨hfault, -, hok, rfl⟩ := h.of_ok hmake
  have hleads : setup.settings.outputRoot.Leads
      [((setup.spared (name :: (names.reverse ++ base)) tree).pave base (names ++ [name])).2]
      home base (names ++ [name]) :=
    h.leads.mono fun other hother => ⟨_, List.mem_singleton_self _,
      List.mem_singleton.1 hother ▸ FileTree.keeps_pave h.find?_base⟩
  have hmade := FileTree.find?_pave_ok h.find?_base hok
  have hthere := (hleads.enter (List.forall_mem_singleton.2 hmade)).entry_eq
    (@over_whole _ _ written) hfault
  simpa using hthere

theorem find?_below_of_ok (h : setup.Approach home base names name tree)
    (hmake : setup.makeOutputRoot.run.run { home, tree, written } = (.ok (), ready))
    (hloc : Beneath (name :: (names.reverse ++ base)) loc) :
    ready.tree.find? loc = if setup.settings.clean then none else tree.find? loc := by
  obtain ⟨-, -, -, rfl⟩ := h.of_ok hmake
  refine (FileTree.find?_pave_beneath h.find?_base (by simpa using hloc)).trans ?_
  unfold Setup.spared
  split
  · exact FileTree.find?_erase_of_suffix hloc.1
  · rfl

end Setup.Approach

end Made

end Unbundle.Build
