import Unbundle.Proofs.Build.Distinct

/-! The files that the units of a build open for writing. Where no module is called like the core
package and no directory of a module like that of its types, each unit has files of its own, in
whatever order the units are run. -/

namespace Unbundle.Build
open Unbundle.Files

/-- The files that were opened for writing since the disk was as it was before. -/
def openedSince (before after : Disk) : List Location :=
  after.written.take (after.written.length - before.written.length)

/-- The units run one after another, each with the files that it opened for writing. -/
def Setup.opened (setup : Setup) (types : Except Failure TypesPlan) :
    List WorkUnit → Disk → List (WorkUnit × List Location)
  | [], _ => []
  | unit :: units, disk =>
    let after := ((setup.runUnit types unit).run disk).2
    (unit, openedSince disk after) :: setup.opened types units after

/-- No file is opened by two of the units. -/
def Apart (opened : List (WorkUnit × List Location)) : Prop :=
  opened.Pairwise fun first second => ∀ loc ∈ first.2, loc ∉ second.2

instance (opened : List (WorkUnit × List Location)) : Decidable (Apart opened) :=
  inferInstanceAs (Decidable (opened.Pairwise _))

namespace Workplace

section Opened
variable {w : Workplace} {types : Except Failure TypesPlan} {unit : WorkUnit}
  {units : List WorkUnit} {d d' : Disk} {loc : Location} {foot : Footprint}

theorem mem_openedSince (h : foot.Marks w.output d d d' d') (hloc : loc ∈ openedSince d d') :
    ∃ names, foot.files names ∧ loc = names.reverse ++ w.output := by
  obtain ⟨log, hlog, -, hfiles⟩ := h.written
  refine hfiles loc ?_
  simpa [openedSince, hlog] using hloc

theorem mem_opened (hextension : '/' ∉ w.setup.settings.extension.toList) (htypes : TypesNamed types)
    (hunits : ∀ unit ∈ units, w.Suits unit) (hd : w.Underway d) {entry : WorkUnit × List Location}
    (hentry : entry ∈ w.setup.opened types units d) : entry.1 ∈ units ∧
      ∀ loc ∈ entry.2, ∃ names, (w.foot types entry.1).files names ∧
        loc = names.reverse ++ w.output := by
  induction units generalizing d with
  | nil => cases hentry
  | cons unit units ih =>
    obtain ⟨hunit, hrest⟩ := List.forall_mem_cons.1 hunits
    have hconcurs : w.Concurs (w.Deeds types unit) (w.setup.runUnit types unit) :=
      .runUnit hextension htypes hunit
    rcases List.mem_cons.1 hentry with rfl | hentry
    · exact ⟨List.mem_cons_self, fun loc hloc => mem_openedSince (hconcurs.marks hd) hloc⟩
    · obtain ⟨hmem, hfiles⟩ := ih hrest (hconcurs.underway hd) hentry
      exact ⟨List.mem_cons_of_mem _ hmem, hfiles⟩

theorem Tidy.apart_opened (tidy : w.Tidy) (htypes : TypesNamed types)
    (hunits : ∀ unit ∈ units, w.Suits unit) (hnodup : units.Nodup) (hd : w.Underway d) :
    Apart (w.setup.opened types units d) := by
  induction units generalizing d with
  | nil => exact List.Pairwise.nil
  | cons unit units ih =>
    obtain ⟨hunit, hrest⟩ := List.forall_mem_cons.1 hunits
    obtain ⟨hnew, hnodup⟩ := List.nodup_cons.1 hnodup
    have hconcurs : w.Concurs (w.Deeds types unit) (w.setup.runUnit types unit) :=
      .runUnit tidy.extension htypes hunit
    refine List.Pairwise.cons (fun entry hentry loc hloc hloc' => ?_)
      (ih hrest hnodup (hconcurs.underway hd))
    obtain ⟨hmem, hfiles⟩ := mem_opened tidy.extension htypes hrest (hconcurs.underway hd) hentry
    obtain ⟨names, hnames, rfl⟩ := mem_openedSince (hconcurs.marks hd) hloc
    obtain ⟨names', hnames', heq⟩ := hfiles _ hloc'
    rw [List.append_left_inj, List.reverse_inj] at heq
    subst heq
    have hne : unit ≠ entry.1 := fun heq => hnew (heq ▸ hmem)
    exact tidy.files_disjoint hne hunit (hrest _ hmem) hnames hnames'

end Opened

/-- The units of a build, run in any order, do not open the same file for writing. -/
theorem Tidy.units_apart {w : Workplace} (tidy : w.Tidy) {memory : Memory} (hmemory : memory.Named)
    {order : List WorkUnit} (horder : order.Perm (w.plan memory).units) :
    Apart (w.setup.opened (w.plan memory).types order w.ready) := by
  have hstaged := w.staged hmemory tidy.extension
  exact tidy.apart_opened hstaged.named
    (fun unit hunit => hstaged.suits unit (horder.mem_iff.1 hunit))
    (horder.nodup_iff.2 hstaged.nodup) w.underway_ready

end Workplace

section Web

def diskOf (files : List (Location × String)) : Disk where
  home := []
  tree := files.foldl (fun tree file => tree.plant file.1 (.file file.2.toUTF8)) .empty

/-- A module `web` with a version `v1`, both with types and enums of their own. -/
def webFiles : List (Location × String) :=
  [(["input.ts", "types", "sdk"],
      "export namespace web \x7b\n    export namespace v1 \x7b\n    \x7d\n\x7d\n"),
    (["output.ts", "types", "sdk"], ""),
    (["index.ts", "web", "enums", "types", "sdk"], "export const Kind = 1;\n"),
    (["index.ts", "v1", "web", "enums", "types", "sdk"], "export const Size = 2;\n"),
    (["index.ts", "sdk"], "export const root = 1;\n"),
    (["utilities.ts", "sdk"], ""),
    (["provider.ts", "sdk"], ""),
    (["index.ts", "web", "sdk"], "export * from \"../types/enums/web\";\n" ++
      "export type Sites = inputs.web.Site[];\n"),
    (["index.ts", "v1", "web", "sdk"], "export * from \"../../types/enums/web/v1\";\n" ++
      "export type Pages = inputs.web.v1.Page[];\n")]

def webSettings : Settings := { sourceRoot := ⟨"/sdk"⟩, outputRoot := ⟨"/packages"⟩ }

def setupOf (settings : Settings) : Setup := ⟨settings, fun _ => .ok ()⟩

def readyOf (settings : Settings) (disk : Disk) : Disk :=
  ((setupOf settings).makeOutputRoot.run.run disk).2

theorem entry_of_all {tree : FileTree} {p : Location → Entry → Bool}
    (h : (tree.entries.toList.all fun entry => p entry.1 entry.2) = true) {loc : Location}
    {entry : Entry} (hfind : tree.find? loc = some entry) : p loc entry = true :=
  List.all_eq_true.1 h _ (Std.ExtTreeMap.mem_toList_iff_getElem?_eq_some.2 hfind)

theorem Workplace.fresh_of_all {w : Workplace}
    (h : (w.ready.tree.entries.toList.all fun entry => !decide (Beneath w.output entry.1)) = true) :
    w.Fresh := by
  intro loc hloc
  cases hfind : w.ready.tree.find? loc with
  | none => rfl
  | some entry =>
    have hnot := @entry_of_all _ (fun loc _ => !decide (Beneath w.output loc)) h _ _ hfind
    simp [hloc] at hnot

def isLink : Entry → Bool
  | .link _ => true
  | _ => false

def webPlace : Workplace where
  setup := setupOf webSettings
  ready := readyOf webSettings (diskOf webFiles)
  source := ["sdk"]
  output := ["packages"]
  leadsSource := by decide +kernel
  leadsOutput := by decide +kernel
  sourceApart := by decide
  outputApart := by decide
  noLink := by
    intro loc _ target hlink
    have hall := @entry_of_all (readyOf webSettings (diskOf webFiles)).tree
      (fun _ entry => !isLink entry) (by decide +kernel) loc _ hlink
    cases hall

theorem tidy_webPlace : webPlace.Tidy where
  extension := by decide
  core := by
    rintro ⟨hfind, -⟩
    revert hfind
    decide +kernel
  types := by
    intro module _ hfind
    have hall := @entry_of_all (readyOf webSettings (diskOf webFiles)).tree
      (fun loc _ => loc.head? != some typesName || loc.length != 3) (by decide +kernel) _ _ hfind
    simp [webPlace] at hall

theorem fresh_webPlace : webPlace.Fresh := Workplace.fresh_of_all (by decide +kernel)

theorem make_readyOf {settings : Settings} {disk : Disk}
    (h : ((setupOf settings).makeOutputRoot.run.run disk).1.isOk = true) :
    (setupOf settings).makeOutputRoot.run.run disk = (.ok (), readyOf settings disk) := by
  unfold readyOf
  revert h
  rcases (setupOf settings).makeOutputRoot.run.run disk with ⟨result, ready⟩
  cases result with
  | ok => exact fun _ => rfl
  | error failure => exact nofun

theorem make_webPlace : webPlace.setup.makeOutputRoot.run.run (diskOf webFiles) =
    (.ok (), webPlace.ready) := by
  unfold webPlace
  simp only
  exact make_readyOf (by decide +kernel)

theorem exists_build_webPlace : ∃ result after,
    webPlace.setup.build.run.run { disk := diskOf webFiles } = (.ok result, after) ∧
    result.report.failures = [] := by
  refine ⟨_, _, @Workplace.run_build webPlace { disk := diskOf webFiles } make_webPlace, ?_⟩
  decide +kernel

theorem captured_webPlace : (webPlace.plan {}).types.toOption.any
    (fun plan => "v1" ∈ plan.streams.versionsOf "web") = true := by
  rw [Workplace.types_plan]
  decide +kernel

/-- The units of the build of `web` have files of their own when they are run the other way round.
-/
theorem Workplace.Tidy.units_apart_web : webPlace.Tidy ∧ ({} : Memory).Named ∧
    (webPlace.plan {}).units.reverse.Perm (webPlace.plan {}).units ∧
    Apart (webPlace.setup.opened (webPlace.plan {}).types (webPlace.plan {}).units.reverse
      webPlace.ready) :=
  ⟨tidy_webPlace, Memory.named_empty, List.reverse_perm _,
    Workplace.Tidy.units_apart tidy_webPlace Memory.named_empty (List.reverse_perm _)⟩

def coreFiles : List (Location × String) :=
  [(["input.ts", "types", "sdk"], ""), (["output.ts", "types", "sdk"], ""),
    (["index.ts", "sdk"], "export const root = 1;\n"), (["utilities.ts", "sdk"], ""),
    (["provider.ts", "sdk"], ""), (["index.ts", "core", "sdk"], "export const module = 1;\n")]

def typesFiles : List (Location × String) :=
  [(["input.ts", "types", "sdk"], "export namespace web \x7b\n\x7d\n"),
    (["output.ts", "types", "sdk"], ""), (["index.ts", "sdk"], "export const root = 1;\n"),
    (["utilities.ts", "sdk"], ""), (["provider.ts", "sdk"], ""),
    (["index.ts", "types", "web", "sdk"], "export const version = 1;\n")]

/-- The files that the units of a build open, in the order of the build. -/
def openedFrom (settings : Settings) (disk : Disk) : List (WorkUnit × List Location) :=
  let ready := readyOf settings disk
  let plan := ((setupOf settings).runStages.run { disk := ready }).1.1
  (setupOf settings).opened plan.types plan.units ready

/-- Names that are not kept apart make two units write one file. -/
theorem not_apart_coreFiles_typesFiles :
    ¬ Apart (openedFrom webSettings (diskOf coreFiles)) ∧
    ¬ Apart (openedFrom webSettings (diskOf typesFiles)) := by
  decide +kernel

end Web

end Unbundle.Build
