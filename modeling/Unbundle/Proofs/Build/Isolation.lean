import Unbundle.Proofs.Build.OutputRoot
import Unbundle.Proofs.Build.AnyOrder

/-! What one module has in the source is its own affair. Builds of two trees that differ in this
alone come to the same packages and the same failures of all other modules, and leave the same
behind everywhere but in the module's output. -/

namespace Unbundle.Build
open Std (ExtTreeMap)
open Unbundle.Files

def Report.others (report : Report) (module : String) : List String × List FailureRecord :=
  (report.packages.filter fun name => name ≠ module,
    report.failures.filter fun record => record.module ≠ module)

def Outcome.records (outcome : Outcome) : List FailureRecord :=
  outcome.failures.map (⟨outcome.unit.name, ·⟩)

section Report
variable {scene : Scene} {first second : List Outcome} {a b : Report} {module : String}

theorem total_module (a b : FailureRecord) :
    decide (a.module ≤ b.module) = true ∨ decide (b.module ≤ a.module) = true := by
  simpa using String.le_total a.module b.module

theorem trans_module (a b c : FailureRecord) (hab : decide (a.module ≤ b.module) = true)
    (hbc : decide (b.module ≤ c.module) = true) : decide (a.module ≤ c.module) = true := by
  simp only [decide_eq_true_eq] at hab hbc ⊢
  exact String.le_trans hab hbc

namespace Scene

end Scene

end Report

namespace Scene

/-- Two runs of a build that come to the same packages and failures of the modules other than the
scene's, and leave the same everywhere but in what the module has in the source and in the output.
-/
structure Isolated (scene : Scene) (first second : Except Failure Result × Session) : Prop where
  report : first.1.map (·.report.others scene.module) = second.1.map (·.report.others scene.module)
  same : ∀ loc, ¬ scene.Hidden loc → ¬ scene.Own loc →
    first.2.disk.tree.find? loc = second.2.disk.tree.find? loc

def bare (scene : Scene) (disk : Disk) : Disk := { disk with tree := scene.hide disk.tree }

/-- Without what the module has in the source, the roots are where they are with it, and no two
units get in each other's way. -/
structure Spaced (scene : Scene) (disk : Disk) : Prop where
  placed : ∀ ready, scene.setup.makeOutputRoot.run.run (scene.bare disk) = (.ok (), ready) →
    scene.Placed ready
  plain : ∀ {w : Workplace}, w.setup = scene.setup →
    scene.setup.makeOutputRoot.run.run (scene.bare disk) = (.ok (), w.ready) →
      w.Plain (w.plan {}).types ∧ ¬ w.Discovered coreName

section Isolated
variable {scene : Scene} {first second third : Disk} {loc : Location}
  {run run' run'' : Except Failure Result × Session}
  {stages stages' : StateM Session (Plan × List Outcome)}

theorem Isolated.trans (h : scene.Isolated run run') (h' : scene.Isolated run' run'') :
    scene.Isolated run run'' where
  report := h.report.trans h'.report
  same loc hhidden hown := (h.same loc hhidden hown).trans (h'.same loc hhidden hown)

theorem hide_hide (tree : FileTree) : scene.hide (scene.hide tree) = scene.hide tree := by
  refine FileTree.ext fun loc => ?_
  rw [find?_hide, find?_hide]
  split <;> rfl

theorem Starts.bare (starts : scene.Starts first second) (spaced : scene.Spaced first) :
    scene.Starts first (scene.bare first) ∧ scene.Starts (scene.bare first) second := by
  have hhide : scene.hide (scene.bare first).tree = scene.hide first.tree := hide_hide _
  have hfirst := starts.placed first (by simp)
  have hsecond := starts.placed second (by simp)
  refine ⟨⟨starts.toApart, starts.home, starts.home, hhide.symm, starts.start, starts.looks,
    List.forall_mem_cons.2 ⟨hfirst, List.forall_mem_singleton.2 spaced.placed⟩⟩,
    ⟨starts.toApart, starts.home, starts.home', hhide.trans starts.hide, starts.start, ?_,
      List.forall_mem_cons.2 ⟨spaced.placed, List.forall_mem_singleton.2 hsecond⟩⟩⟩
  refine fun hlook => starts.looks (hlook.mono fun loc target _ hlink => ?_)
  rw [Scene.bare, find?_hide] at hlink
  split at hlink
  · cases hlink
  · exact hlink

end Isolated

end Scene

section Storage

end Storage

section Through

end Through

end Unbundle.Build
