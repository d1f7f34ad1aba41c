import Unbundle.Proofs.Build.Scene
import Unbundle.Proofs.Files.Looks

/-! The output root is made on two disks that differ in what one module has in the source. Unless
the way to the root leads through that, whatever else is on it, making the root comes to the same on
both disks, and the disks are alike afterwards. -/

namespace Unbundle.Build
open Unbundle.Files

namespace Scene

/-- Where the roots are once the output root is made, and that no links are where they should not
be. -/
structure Placed (scene : Scene) (ready : Disk) : Prop where
  source : ready.entry scene.setup.settings.sourceRoot = .ok (scene.source, .directory)
  output : ready.entry scene.setup.settings.outputRoot = .ok (scene.output, .directory)
  noLink : ∀ {loc}, scene.Plain loc → ready.tree.NoLink loc

/-- Two disks that builds can start with. They differ in what the module has in the source alone,
the way to the output root does not lead through it, and the roots are where they should be once
the output root is made. -/
structure Starts (scene : Scene) (first second : Disk) : Prop extends scene.Apart where
  home : first.home = scene.home
  home' : second.home = scene.home
  hide : scene.hide first.tree = scene.hide second.tree
  start : ¬ scene.Hidden (first.start scene.setup.settings.outputRoot)
  looks : ∀ {loc}, first.tree.LooksAt FileTree.maxLinks
    (first.start scene.setup.settings.outputRoot) scene.setup.settings.outputRoot.steps loc →
      ¬ scene.Hidden loc
  placed : ∀ disk ∈ [first, second], ∀ ready,
    scene.setup.makeOutputRoot.run.run disk = (.ok (), ready) → scene.Placed ready

/-- What the runs that make the output root come to on two disks: the same result, and nothing
differs but what is hidden. Unless they fail, the paths of the settings lead to the roots, and the
disks are alike. -/
structure Ready (scene : Scene) (first second : Except Failure Unit × Disk) : Prop where
  result : first.1 = second.1
  same : ∀ {loc}, ¬ scene.Hidden loc → first.2.tree.find? loc = second.2.tree.find? loc
  alike : ∀ a, first.1 = .ok a → ∃ grounds, scene.Fits grounds ∧
    scene.Alike grounds first.2 second.2

section Starts
variable {scene : Scene} {tree other : FileTree} {loc : Location} {d e : Disk}

theorem downward_hidden : Downward scene.Hidden where
  root := by simp [Hidden, Beneath, enums]
  below := by
    have hbeneath : ∀ {base dir : Location} {name : String}, Beneath base dir →
        Beneath base (name :: dir) := by
      rintro base dir name ⟨hsuffix, -⟩
      refine ⟨hsuffix.trans (List.suffix_cons _ _), fun heq => ?_⟩
      have hlength := hsuffix.length_le
      rw [← heq, List.length_cons] at hlength
      omega
    intro name dir hdir
    exact Or.imp hbeneath hbeneath hdir

theorem same_of_hide_eq (h : scene.hide tree = scene.hide other) (hhidden : ¬ scene.Hidden loc) :
    tree.find? loc = other.find? loc := by
  have hfind : (scene.hide tree).find? loc = (scene.hide other).find? loc := by rw [h]
  rwa [find?_hide, find?_hide, if_neg hhidden, if_neg hhidden] at hfind

theorem alike_of_placed (hd : d.home = scene.home) (he : e.home = scene.home)
    (hsame : ∀ {loc}, ¬ scene.Hidden loc → d.tree.find? loc = e.tree.find? loc)
    (hplaced : scene.Placed d) (hplaced' : scene.Placed e) :
    scene.Alike [d.tree, e.tree] d e where
  sound := ⟨⟨hd, d.tree, by simp, fun _ => ⟨id, fun _ => id⟩⟩, hplaced.noLink⟩
  sound' := ⟨⟨he, e.tree, by simp, fun _ => ⟨id, fun _ => id⟩⟩, hplaced'.noLink⟩
  same hhidden _ := hsame hhidden

theorem Apart.fits_of_placed (apart : scene.Apart) (hd : d.home = scene.home)
    (he : e.home = scene.home) (hplaced : scene.Placed d) (hplaced' : scene.Placed e) :
    scene.Fits [d.tree, e.tree] := by
  have hleads : ∀ {path : Path} {dir : Location}, d.entry path = .ok (dir, .directory) →
      e.entry path = .ok (dir, .directory) → path.Leads [d.tree, e.tree] scene.home dir [] := by
    intro path dir hdir hdir'
    exact Path.leads_of_entry (List.forall_mem_cons.2 ⟨hd ▸ hdir,
      List.forall_mem_singleton.2 (he ▸ hdir')⟩)
  exact ⟨apart, hleads hplaced.source hplaced'.source, hleads hplaced.output hplaced'.output⟩

theorem inStep_makeOutputRoot : InStep (SameOutside scene.Hidden
      (scene.setup.settings.outputRoot :: scene.setup.settings.outputRoot.ancestors) tree scene.home)
    scene.setup.makeOutputRoot fun _ _ => True := by
  have hroot : scene.setup.settings.outputRoot ∈
      scene.setup.settings.outputRoot :: scene.setup.settings.outputRoot.ancestors := by simp
  have hmake : InStep (SameOutside scene.Hidden _ tree scene.home)
      (Work.makeDirectories scene.setup.settings.outputRoot) fun _ _ => True :=
    InStep.at (SameOutside.makeDirectories downward_hidden hroot
      fun _ => List.mem_cons_of_mem _)
  unfold Setup.makeOutputRoot
  simp only
  refine .get_bind (fun d e h => ?_) fun d e h => ?_
  · rw [Disk.pathExists, Disk.pathExists, h.entry_congr downward_hidden hroot]
  · split
    · exact .bind (InStep.at (SameOutside.removeAll downward_hidden hroot)) fun _ _ _ => hmake
    · exact hmake

theorem Starts.sameOutside (starts : scene.Starts d e) : SameOutside scene.Hidden
    (scene.setup.settings.outputRoot :: scene.setup.settings.outputRoot.ancestors) d.tree scene.home
    d e :=
  .of_path ⟨starts.home, starts.home', same_of_hide_eq starts.hide,
    List.forall_mem_singleton.2 starts.start, List.forall_mem_singleton.2 starts.looks, id⟩

/-- Making the output root leaves disks ready that differ in what is hidden alone. -/
theorem Starts.makeOutputRoot (starts : scene.Starts d e) :
    scene.Ready (scene.setup.makeOutputRoot.run.run d)
      (scene.setup.makeOutputRoot.run.run e) := by
  obtain ⟨heq, hend, -⟩ := inStep_makeOutputRoot _ _ starts.sameOutside
  refine ⟨heq, hend.same, fun a ha => ?_⟩
  have hplaced := starts.placed d (by simp) _ (Prod.ext ha rfl)
  have hplaced' := starts.placed e (by simp) _ (Prod.ext (heq.symm.trans ha) rfl)
  exact ⟨_, starts.toApart.fits_of_placed hend.home hend.home' hplaced hplaced',
    alike_of_placed hend.home hend.home' hend.same hplaced hplaced'⟩

end Starts

end Scene

end Unbundle.Build
