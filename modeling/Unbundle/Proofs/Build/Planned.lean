import Mathlib.Data.List.Nodup
import Unbundle.Proofs.Build.Concurs
import Unbundle.Proofs.Build.Stages

/-! What a build plans once its output root is ready. Planning changes nothing on the disk, and the
units do not touch the source, so that the units of both stages are known before the first one is
run, and all of them suit the place that they work at. This does not depend on the order of the
units, and without links in the source it stays so while they are run. -/

namespace Unbundle.Build
open Std (ExtTreeMap ExtTreeSet)
open Unbundle.Files Unbundle.Declaration

/-- All streams that are remembered give names that can be joined to a path. -/
def Memory.Named (memory : Memory) : Prop :=
  ∀ direction stream, memory.get direction = some stream → stream.Named

theorem Memory.named_empty : Memory.Named {} := fun direction _ h => by cases direction <;> cases h

def mentions (stream : Stream) (module : String) : Prop :=
  module ∈ stream.modules.keys ∨ ∃ issue ∈ stream.issues, issue.scope.module = module

def modulesOfTypes (streams : Streams) (enums : List (String × Entry)) : List String :=
  let named (stream : Stream) := stream.modules.keys ++ stream.issues.map (·.scope.module)
  (ExtTreeSet.ofList (named streams.inputs ++ named streams.outputs ++ directoryNames enums)).toList

theorem nodup_toList {names : ExtTreeSet String} : names.toList.Nodup :=
  ExtTreeSet.distinct_toList.imp fun hne heq => hne (by rw [heq]; exact Std.ReflCmp.compare_self)

section Outcomes
variable {setup : Setup} {types : Except Failure TypesPlan} {unit : WorkUnit} {d : Disk}

theorem inStep_eq {σ ε α : Type} {work : ExceptT ε (StateM σ) α} :
    InStep Eq work fun _ _ => True := by
  rintro d _ rfl
  exact ⟨rfl, rfl, fun _ _ => trivial⟩

theorem unit_runUnit : ((setup.runUnit types unit).run d).1.unit = unit := by
  have hunit : RunsInStep Eq (setup.runUnit types unit) (·.unit = unit) := by
    cases unit with
    | core => exact RunsInStep.makePackage inStep_eq
    | implementation module => exact RunsInStep.makePackage inStep_eq
    | types module =>
      cases types with
      | error failure => exact .pure rfl
      | ok plan =>
        unfold Setup.runUnit Setup.runTypes
        simp only
        split
        · refine .bind (RunsInStep.countTypes rfl inStep_eq) fun outcome hunit => ?_
          exact .foldlM hunit fun outcome version _ hunit =>
            RunsInStep.countTypes hunit inStep_eq
        · exact .pure rfl
  exact (hunit d d rfl).2.2

end Outcomes

theorem Plan.nodup_units {plan : Plan}
    (htypes : ∀ types, plan.types = .ok types → types.modules.Nodup)
    (hmodules : ∀ modules, plan.modules = .ok modules → modules.Nodup) : plan.units.Nodup := by
  have hfirst : (planned plan.typesUnits).Nodup ∧
      ∀ unit ∈ planned plan.typesUnits, ∃ module, unit = .types module := by
    unfold Plan.typesUnits
    cases hplan : plan.types with
    | error failure => exact ⟨List.nodup_nil, nofun⟩
    | ok types =>
      refine ⟨List.Nodup.map (fun _ _ heq => by injection heq) (htypes types hplan),
        fun unit hunit => ?_⟩
      obtain ⟨module, -, rfl⟩ := List.mem_map.1 hunit
      exact ⟨module, rfl⟩
  have hsecond : (planned plan.implementationUnits).Nodup ∧
      ∀ module, .types module ∉ planned plan.implementationUnits := by
    unfold Plan.implementationUnits
    cases hplan : plan.modules with
    | error failure => exact ⟨List.nodup_nil, fun _ => nofun⟩
    | ok modules =>
      refine ⟨List.nodup_cons.2 ⟨by simp, ?_⟩, fun module => by simp [planned, Except.map]⟩
      exact List.Nodup.map (fun _ _ heq => by injection heq) (hmodules modules hplan)
  refine List.Nodup.append hfirst.1 hsecond.1 fun unit hunit hunit' => ?_
  obtain ⟨module, rfl⟩ := hfirst.2 unit hunit
  exact hsecond.2 module hunit'

section Plan
variable {streams : Streams} {module : String} {enums : List (String × Entry)} {setup : Setup}
  {d : Disk} {path : Files.Path}

theorem mem_modulesOfTypes : module ∈ modulesOfTypes streams enums ↔
    (mentions streams.inputs module ∨ mentions streams.outputs module) ∨
      module ∈ directoryNames enums := by
  unfold modulesOfTypes mentions
  simp only [ExtTreeSet.mem_toList, ExtTreeSet.mem_ofList, List.contains_iff_mem, List.mem_append,
    List.mem_map]

theorem InStep.listIfPresent_self : InStep (fun x y => x = d ∧ y = d) (Work.listIfPresent path)
    fun entries _ => Listed entries ∧ Lists? d path entries := by
  have hstep : InStep (fun x y => x = d ∧ y = d) (Work.listIfPresent path)
      fun entries _ => Listed entries :=
    InStep.listIfPresent fun _ _ ⟨hx, hy⟩ => by rw [hx, hy]
  intro x y hxy
  obtain ⟨hresult, hend, hlisted⟩ := hstep x y hxy
  obtain rfl := hxy.1
  refine ⟨hresult, hend, fun entries hentries => ⟨hlisted entries hentries, ?_⟩⟩
  rw [run_listIfPresent] at hentries
  unfold Lists?
  cases hlist : x.list path with
  | ok found =>
    simp only [hlist] at hentries
    cases hentries
    exact .inl rfl
  | error fault =>
    simp only [hlist] at hentries
    cases fault
    case notFound =>
      cases hentries
      exact .inr ⟨rfl, rfl⟩
    all_goals cases hentries

/-- The plan for the types, from streams and enums as they are on the disk. -/
def TypesPlan.Drawn (setup : Setup) (d : Disk) (plan : TypesPlan) : Prop :=
  ∃ enums, Lists? d setup.settings.sdk.enums enums ∧
    plan.modules = modulesOfTypes plan.streams enums

theorem InStep.planTypes_self : InStep (Sessions fun x y => x = d ∧ y = d) setup.planTypes
    fun plan _ => plan.Named ∧ plan.Drawn setup d := by
  have hplan : InStep (Sessions fun x y => x = d ∧ y = d) setup.planTypes fun plan _ => plan.Named :=
    InStep.planTypes (fun _ _ _ ⟨hx, hy⟩ => by rw [hx, hy]) fun _ _ ⟨hx, hy⟩ => by rw [hx, hy]
  have hdrawn : InStep (Sessions fun x y => x = d ∧ y = d) setup.planTypes
      fun plan _ => plan.Drawn setup d := by
    unfold Setup.planTypes
    refine .bind (InStep.streams fun _ _ _ ⟨hx, hy⟩ => by rw [hx, hy]) fun streams _ _ => ?_
    exact .bind (InStep.ofWork InStep.listIfPresent_self) fun enums _ ⟨_, hlisted⟩ =>
      .pure fun _ => ⟨enums, hlisted, rfl⟩
  intro first second hsessions
  obtain ⟨hresult, hend, hnamed⟩ := hplan first second hsessions
  obtain ⟨-, -, hdrawn⟩ := hdrawn first second hsessions
  exact ⟨hresult, hend, fun plan hplan => ⟨hnamed plan hplan, hdrawn plan hplan⟩⟩

theorem run_moduleNames {ignored : List String} : (moduleNames path ignored).run.run d =
    (((d.list path).mapError (.io path)).map fun entries =>
      (directoryNames entries).filter fun name => !ignored.contains name, d) := by
  unfold moduleNames Work.list Work.at
  rw [run_bind, run_adapt, run_ofDisk]
  cases d.list path <;> rfl

theorem ascending_children {tree : FileTree} {dir : Location} :
    (tree.children dir).Pairwise fun entry entry' => entry.1 < entry'.1 := by
  unfold FileTree.children
  refine List.Pairwise.filterMap _ ?_ ExtTreeMap.ordered_keys_toList
  rintro ⟨loc, entry⟩ ⟨loc', entry'⟩ hlt ⟨name, found⟩ hfound ⟨name', found'⟩ hfound'
  cases loc with
  | nil => cases hfound
  | cons first above =>
    cases loc' with
    | nil => cases hfound'
    | cons first' above' =>
      simp only [Option.ite_none_right_eq_some, Option.some.injEq, Prod.mk.injEq] at hfound hfound'
      obtain ⟨habove, rfl, -⟩ := hfound
      obtain ⟨habove', rfl, -⟩ := hfound'
      simp only at hlt
      have hsame : compare dir dir = .eq := Std.ReflCmp.compare_self
      rw [List.compare_cons_cons, habove, habove', hsame, Ordering.then_eq] at hlt
      exact compareOfLessAndEq_eq_lt.1 hlt

theorem ascending_directoryNames {tree : FileTree} {dir : Location} :
    (directoryNames (tree.children dir)).Pairwise (· < ·) :=
  (ascending_children.filter _).map _ fun _ _ h => h

theorem nodup_of_ascending {names : List String} (h : names.Pairwise (· < ·)) : names.Nodup := by
  refine h.imp fun {a b} hlt heq => ?_
  rw [heq] at hlt
  exact String.lt_irrefl b hlt

theorem ascending_moduleNames {ignored modules : List String} {d' : Disk}
    (h : (moduleNames path ignored).run.run d = (.ok modules, d')) :
    modules.Pairwise (· < ·) := by
  rw [run_moduleNames] at h
  unfold Disk.list at h
  cases hentry : d.entry path with
  | error fault =>
    simp only [hentry, bind, Except.bind] at h
    cases h
  | ok found =>
    obtain ⟨loc, entry⟩ := found
    simp only [hentry, bind, Except.bind] at h
    split at h
    · cases h
      exact ascending_directoryNames.filter _
    · cases h

theorem Setup.exists_ready_of_build {start after : Session} {result : Result}
    (h : setup.build.run.run start = (.ok result, after)) :
    ∃ ready, setup.makeOutputRoot.run.run start.disk = (.ok (), ready) := by
  cases hmade : setup.makeOutputRoot.run.run start.disk with
  | mk made ready =>
    cases made with
    | ok => exact ⟨ready, rfl⟩
    | error failure =>
      rw [Setup.run_build_error hmade] at h
      cases h

theorem nodup_modules_of_planTypes {start session : Session} {types : TypesPlan}
    (h : setup.planTypes.run.run start = (.ok types, session)) : types.modules.Nodup := by
  unfold Setup.planTypes at h
  rw [run_bind] at h
  cases hstreams : setup.streams.run.run start with
  | mk streams session' =>
    rw [hstreams] at h
    cases streams with
    | error failure => cases h
    | ok streams =>
      simp only at h
      rw [run_bind] at h
      cases henums : (SessionM.ofWork
          (Work.listIfPresent setup.settings.sdk.enums)).run.run session' with
      | mk enums session' =>
        rw [henums] at h
        cases enums with
        | error failure => cases h
        | ok enums =>
          cases h
          simp only
          exact nodup_toList

end Plan

namespace Workplace

def stages (w : Workplace) (memory : Memory) : (Plan × List Outcome) × Session :=
  w.setup.runStages.run ⟨memory, w.ready⟩

def plan (w : Workplace) (memory : Memory) : Plan := (w.stages memory).1.1

theorem types_plan (w : Workplace) (memory : Memory) :
    (w.plan memory).types = (w.setup.planTypes.run.run ⟨memory, w.ready⟩).1 := rfl

/-- What is known about the stages of a build that takes its units in some order. -/
structure Staged (w : Workplace) (plan : Plan) (order : List WorkUnit) (outcomes : List Outcome)
    (after : Disk) : Prop where
  types : ∀ types, plan.types = .ok types → types.Named ∧ types.Drawn w.setup w.ready
  modules : ∀ modules, plan.modules = .ok modules →
    modules.Nodup ∧ ∀ module, module ∈ modules ↔ w.Discovered module
  perm : order.Perm plan.units
  run : (w.setup.runUnits plan.types order).run w.ready = (outcomes, after)

section Staged
variable {w : Workplace} {setup : Setup} {d : Disk} {plan : Plan} {outcomes : List Outcome}
  {after : Disk} {unit : WorkUnit} {types : Except Failure TypesPlan}
  {order units more : List WorkUnit}

theorem run_runUnits_append : (setup.runUnits types (units ++ more)).run d =
    (((setup.runUnits types units).run d).1 ++
      ((setup.runUnits types more).run ((setup.runUnits types units).run d).2).1,
      ((setup.runUnits types more).run ((setup.runUnits types units).run d).2).2) := by
  unfold Setup.runUnits
  rw [List.mapM_append]
  rfl

theorem run_runUnits_cons : (setup.runUnits types (unit :: units)).run d =
    (((setup.runUnit types unit).run d).1 ::
      ((setup.runUnits types units).run ((setup.runUnit types unit).run d).2).1,
      ((setup.runUnits types units).run ((setup.runUnit types unit).run d).2).2) := by
  unfold Setup.runUnits
  rw [List.mapM_cons]
  rfl

theorem map_unit_runUnits :
    ((setup.runUnits types units).run d).1.map (·.unit) = units := by
  induction units generalizing d with
  | nil => rfl
  | cons unit units ih => rw [run_runUnits_cons, List.map_cons, unit_runUnit, ih]

theorem Underway.runUnits (hd : w.Underway d)
    (hunits : ∀ unit ∈ units, ∃ kind, w.Concurs kind (w.setup.runUnit types unit)) :
    w.Underway ((w.setup.runUnits types units).run d).2 := by
  induction units generalizing d with
  | nil => exact hd
  | cons unit units ih =>
    obtain ⟨⟨kind, hunit⟩, hunits⟩ := List.forall_mem_cons.1 hunits
    rw [run_runUnits_cons]
    exact ih (hunit.underway hd) hunits

/-- The modules that are found while the units are run are those that are there before. -/
theorem Underway.discovered (hd : w.Underway d) {entries : List (String × Entry)}
    (hlist : d.list w.setup.settings.sourceRoot = .ok entries) :
    let modules := (directoryNames entries).filter fun name =>
      !w.setup.settings.ignoredDirs.contains name
    modules.Nodup ∧ ∀ module, module ∈ modules ↔ w.Discovered module := by
  have hnames : ∀ name ∈ ([] : List String), IsName name := by simp
  have hroot : w.ready.tree.find? (([] : List String).reverse ++ w.source) = some .directory :=
    (Disk.follow_of_entry w.leadsSource).2
  obtain rfl := hd.list_source hnames hroot hlist
  refine ⟨nodup_of_ascending (ascending_directoryNames.filter _), fun module => ?_⟩
  rw [List.mem_filter, mem_directoryNames, FileTree.mem_children]
  simp [Discovered]

theorem suits_types {plan : TypesPlan} (h : plan.Named) : ∀ unit ∈ plan.units, w.Suits unit := by
  intro unit hunit
  obtain ⟨module, hmodule, rfl⟩ := List.mem_map.1 hunit
  exact h.modules module hmodule

theorem Staged.named (h : w.Staged plan order outcomes after) : TypesNamed plan.types :=
  fun types htypes => (h.types types htypes).1.streams

theorem Staged.suits (h : w.Staged plan order outcomes after) : ∀ unit ∈ plan.units, w.Suits unit := by
  intro unit hunit
  unfold Plan.units Plan.typesUnits Plan.implementationUnits at hunit
  rcases List.mem_append.1 hunit with hunit | hunit
  · cases htypes : plan.types with
    | error failure =>
      rw [htypes] at hunit
      cases hunit
    | ok types =>
      rw [htypes] at hunit
      exact suits_types (h.types types htypes).1 unit hunit
  · cases hmodules : plan.modules with
    | error failure =>
      rw [hmodules] at hunit
      cases hunit
    | ok modules =>
      rw [hmodules] at hunit
      rcases List.mem_cons.1 hunit with rfl | hunit
      · trivial
      · obtain ⟨module, hmodule, rfl⟩ := List.mem_map.1 hunit
        exact ((h.modules modules hmodules).2 module).1 hmodule

theorem Staged.nodup (h : w.Staged plan order outcomes after) : plan.units.Nodup := by
  refine Plan.nodup_units (fun types htypes => ?_) fun modules hmodules =>
    (h.modules modules hmodules).1
  obtain ⟨-, enums, -, hmodules⟩ := h.types types htypes
  rw [hmodules]
  exact nodup_toList

theorem Staged.concurs (h : w.Staged plan order outcomes after)
    (hextension : '/' ∉ w.setup.settings.extension.toList) (hunit : unit ∈ plan.units) :
    w.Concurs (w.Deeds plan.types unit) (w.setup.runUnit plan.types unit) :=
  .runUnit hextension h.named (h.suits unit hunit)

theorem Staged.underway (h : w.Staged plan order outcomes after)
    (hextension : '/' ∉ w.setup.settings.extension.toList) : w.Underway after := by
  have hunits : w.Underway ((w.setup.runUnits plan.types order).run w.ready).2 :=
    w.underway_ready.runUnits fun unit hunit =>
      ⟨_, h.concurs hextension (h.perm.mem_iff.1 hunit)⟩
  rwa [h.run] at hunits

theorem run_runStages {setup : Setup} {start : Session} : setup.runStages.run start =
    (let types := (setup.planTypes.run.run start).1
    let session := (setup.planTypes.run.run start).2
    let first := (setup.runUnits types (planned (types.map (·.units)))).run session.disk
    let found := (moduleNames setup.settings.sourceRoot setup.settings.ignoredDirs).run.run first.2
    let plan : Plan := ⟨types, found.1⟩
    let second := (setup.runUnits types (planned plan.implementationUnits)).run found.2
    ((plan, first.1 ++ second.1), { session with disk := second.2 })) := rfl

theorem exists_run_planTypes (w : Workplace) {memory : Memory} (hmemory : memory.Named) :
    ∃ types session, w.setup.planTypes.run.run ⟨memory, w.ready⟩ = (types, session) ∧
      session.disk = w.ready ∧
      ∀ plan, types = .ok plan → plan.Named ∧ plan.Drawn w.setup w.ready := by
  have hsessions : Sessions (fun x y => x = w.ready ∧ y = w.ready) ⟨memory, w.ready⟩
      ⟨memory, w.ready⟩ := ⟨rfl, hmemory, rfl, rfl⟩
  have hplan : InStep (Sessions fun x y => x = w.ready ∧ y = w.ready) w.setup.planTypes
      fun plan _ => plan.Named ∧ plan.Drawn w.setup w.ready := InStep.planTypes_self
  obtain ⟨-, hend, hplanned⟩ := hplan _ _ hsessions
  exact ⟨_, _, rfl, hend.disk.1, hplanned⟩

theorem Underway.runTypesUnits (hd : w.Underway d)
    (hextension : '/' ∉ w.setup.settings.extension.toList)
    (hnamed : ∀ plan, types = .ok plan → plan.Named)
    (hunits : ∀ unit ∈ units, unit ∈ planned (types.map (·.units))) :
    w.Underway ((w.setup.runUnits types units).run d).2 := by
  refine hd.runUnits fun unit hunit => ?_
  have hmem := hunits unit hunit
  cases types with
  | error failure => cases hmem
  | ok plan =>
    have hplan := hnamed plan rfl
    refine ⟨_, .runUnit hextension (fun other hother => ?_) (suits_types hplan unit hmem)⟩
    cases hother
    exact hplan.streams

theorem run_build (w : Workplace) {start : Session}
    (h : w.setup.makeOutputRoot.run.run start.disk = (.ok (), w.ready)) :
    w.setup.build.run.run start =
      (.ok ⟨(w.plan start.memory).report (w.stages start.memory).1.2,
        (w.stages start.memory).1.2.flatMap (·.announced)⟩, (w.stages start.memory).2) :=
  Setup.run_build h

end Staged

/-- On some disks the stages go by the plan of the place, taking its units in one order. -/
structure Takes (w : Workplace) (memory : Memory) (among : Disk → Prop)
    (stages : StateM Session (Plan × List Outcome)) (units : List WorkUnit) : Prop where
  perm : units.Perm (w.plan memory).units
  run : ∀ {d}, among d → ∃ memory', stages.run ⟨memory, d⟩ =
    (let run := (w.setup.runUnits (w.plan memory).types units).run d
    ((w.plan memory, run.1), ⟨memory', run.2⟩))

section Takes
variable {w : Workplace} {memory : Memory} {d : Disk} {among : Disk → Prop} {plan : Plan}
  {stages : StateM Session (Plan × List Outcome)} {order : List WorkUnit → List WorkUnit}
  {units : List WorkUnit}

theorem steady_ready (w : Workplace) : w.Steady [] (· = w.ready) where
  underway hd := hd ▸ w.underway_ready
  has := fun _ => nofun
  reads := .inr fun hd he => hd.trans he.symm

theorem Steady.run_planTypes (h : w.Steady [] among) (hready : among w.ready) (hd : among d)
    (hmemory : memory.Named) (hextension : '/' ∉ w.setup.settings.extension.toList) :
    (w.setup.planTypes.run.run ⟨memory, d⟩).1 = (w.plan memory).types ∧
    (w.setup.planTypes.run.run ⟨memory, d⟩).2.disk = d ∧
    ∀ types, (w.plan memory).types = .ok types → types.Named := by
  have hplan : InStep (Sessions fun x y => x = w.ready ∧ y = d) w.setup.planTypes
      fun plan _ => plan.Named := by
    refine InStep.planTypes ?_ ?_
    · rintro direction _ _ ⟨rfl, rfl⟩
      have hstem : IsName direction.stem := by cases direction <;> decide
      exact @Steady.entry _ _ _ [typesName, fileName direction.stem w.setup.settings.extension] _ _
        h hready hd (by simpa using ⟨isName_typesName, isName_fileName hstem hextension⟩)
    · rintro _ _ ⟨rfl, rfl⟩
      exact @Steady.list _ _ _ [typesName, enumsName] _ _ h hready hd
        (by simpa using ⟨isName_typesName, isName_enumsName⟩)
  obtain ⟨hresult, hend, hnamed⟩ := hplan ⟨memory, w.ready⟩ ⟨memory, d⟩ ⟨rfl, hmemory, rfl, rfl⟩
  rw [types_plan, hresult]
  exact ⟨rfl, hend.disk.2, fun types htypes => hnamed types (hresult.trans htypes)⟩

/-- On steady disks the stages go by a plan with the types of the place and the modules that were
there before. -/
theorem Steady.run_runStagesIn (h : w.Steady [] among) (hready : among w.ready) (hd : among d)
    (hmemory : memory.Named) (hextension : '/' ∉ w.setup.settings.extension.toList)
    (horder : ∀ units, (order units).Perm units) (htypes : plan.types = (w.plan memory).types)
    (hmodules : plan.modules = ((moduleNames w.setup.settings.sourceRoot
      w.setup.settings.ignoredDirs).run.run w.ready).1) :
    (w.setup.runStagesIn order).run ⟨memory, d⟩ =
      (let run := (w.setup.runUnits plan.types (order (planned plan.typesUnits) ++
        order (planned plan.implementationUnits))).run d
      ((plan, run.1), { (w.setup.planTypes.run.run ⟨memory, d⟩).2 with disk := run.2 })) := by
  obtain ⟨hplan, hdisk, hnamed⟩ := h.run_planTypes hready hd hmemory hextension
  rw [← htypes] at hplan hnamed
  have hunits : plan.types.map (·.units) = plan.typesUnits := rfl
  have hfirst : w.Underway
      ((w.setup.runUnits plan.types (order (planned plan.typesUnits))).run d).2 :=
    (h.underway hd).runTypesUnits hextension hnamed fun unit => (horder _).mem_iff.1
  have hfound : (moduleNames w.setup.settings.sourceRoot w.setup.settings.ignoredDirs).run.run
      ((w.setup.runUnits plan.types (order (planned plan.typesUnits))).run d).2 =
        (plan.modules, ((w.setup.runUnits plan.types (order (planned plan.typesUnits))).run d).2) := by
    rw [hmodules, run_moduleNames, run_moduleNames, hfirst.list_root]
  rw [Setup.run_runStagesIn]
  simp only [hplan, hdisk, hunits, hfound]
  rw [run_runUnits_append]

theorem modules_plan (w : Workplace) (hmemory : memory.Named)
    (hextension : '/' ∉ w.setup.settings.extension.toList) :
    (w.plan memory).modules = ((moduleNames w.setup.settings.sourceRoot
      w.setup.settings.ignoredDirs).run.run w.ready).1 := by
  have hplan : ∀ types modules, ∃ plan : Plan, plan.types = types ∧ plan.modules = modules :=
    fun types modules => ⟨⟨types, modules⟩, rfl, rfl⟩
  obtain ⟨found, htypes, hmodules⟩ := hplan (w.plan memory).types ((moduleNames
    w.setup.settings.sourceRoot w.setup.settings.ignoredDirs).run.run w.ready).1
  have hrun := @Steady.run_runStagesIn w memory w.ready _ found id w.steady_ready rfl rfl hmemory
    hextension (fun _ => .refl _) htypes hmodules
  rw [← hmodules]
  unfold Workplace.plan stages
  rw [Setup.runStages_eq, hrun]

theorem takes_runStagesIn (h : w.Steady [] among) (hready : among w.ready) (hmemory : memory.Named)
    (hextension : '/' ∉ w.setup.settings.extension.toList)
    (horder : ∀ units, (order units).Perm units) :
    w.Takes memory among (w.setup.runStagesIn order)
      (order (planned (w.plan memory).typesUnits) ++
        order (planned (w.plan memory).implementationUnits)) where
  perm := (horder _).append (horder _)
  run {d} hd := ⟨(w.setup.planTypes.run.run ⟨memory, d⟩).2.memory,
    h.run_runStagesIn hready hd hmemory hextension horder rfl (w.modules_plan hmemory hextension)⟩

theorem takes_runMixed (h : w.Steady [] among) (hready : among w.ready) (hmemory : memory.Named)
    (hextension : '/' ∉ w.setup.settings.extension.toList)
    (horder : ∀ units, (order units).Perm units) :
    w.Takes memory among (w.setup.runMixed order) (order (w.plan memory).units) where
  perm := horder _
  run {d} hd := by
    obtain ⟨hplan, hdisk, -⟩ := h.run_planTypes hready hd hmemory hextension
    have hfound : (moduleNames w.setup.settings.sourceRoot w.setup.settings.ignoredDirs).run.run d =
        ((w.plan memory).modules, d) := by
      rw [w.modules_plan hmemory hextension, run_moduleNames, run_moduleNames,
        (h.underway hd).list_root]
    refine ⟨(w.setup.planTypes.run.run ⟨memory, d⟩).2.memory, ?_⟩
    rw [Setup.run_runMixed]
    simp only [hplan, hdisk, hfound]

theorem exists_takes (h : w.Steady [] among) (hready : among w.ready) (hmemory : memory.Named)
    (hextension : '/' ∉ w.setup.settings.extension.toList) (horders : w.setup.Orders stages) :
    ∃ units, w.Takes memory among stages units := by
  cases horders with
  | staged perm => exact ⟨_, takes_runStagesIn h hready hmemory hextension perm⟩
  | mixed perm => exact ⟨_, takes_runMixed h hready hmemory hextension perm⟩

theorem Takes.staged (h : w.Takes memory among stages units) (hready : among w.ready)
    (hmemory : memory.Named) (hextension : '/' ∉ w.setup.settings.extension.toList) :
    w.Staged (w.plan memory) units (stages.run ⟨memory, w.ready⟩).1.2
      (stages.run ⟨memory, w.ready⟩).2.disk := by
  obtain ⟨memory', hrun⟩ := h.run hready
  obtain ⟨types, session, hplan, -, hplanned⟩ := w.exists_run_planTypes hmemory
  have hmodules := w.modules_plan hmemory hextension
  rw [hrun]
  refine ⟨fun plan htypes => hplanned plan ?_, fun modules hfound => ?_, h.perm, rfl⟩
  · rw [types_plan, hplan] at htypes
    exact htypes
  · rw [hmodules, run_moduleNames] at hfound
    cases hlist : w.ready.list w.setup.settings.sourceRoot with
    | error fault =>
      rw [hlist] at hfound
      cases hfound
    | ok entries =>
      rw [hlist] at hfound
      cases hfound
      exact w.underway_ready.discovered hlist

theorem staged (w : Workplace) (hmemory : memory.Named)
    (hextension : '/' ∉ w.setup.settings.extension.toList) :
    w.Staged (w.plan memory) (w.plan memory).units (w.stages memory).1.2
      (w.stages memory).2.disk :=
  (takes_runStagesIn w.steady_ready rfl hmemory hextension fun _ => .refl _).staged rfl hmemory
    hextension

end Takes

end Workplace

end Unbundle.Build
