import Mathlib.Data.List.Forall2
import Unbundle.Proofs.Build.Scene

/-! The stages of a build on two sessions whose disks differ in what one module has. Both plan the
same units, the units of the other modules come to the same outcomes, and the disks stay alike. -/

namespace Unbundle.Build
open Std (ExtTreeMap ExtTreeSet)
open Unbundle.Files Unbundle.Declaration
open Unbundle.Files.FileTree (Along)

/-- Two sessions that remember the same streams and have related disks. -/
structure Sessions (R : Disk → Disk → Prop) (first second : Session) : Prop where
  memory : first.memory = second.memory
  named : ∀ direction stream, first.memory.get direction = some stream → stream.Named
  disk : R first.disk second.disk

section Sessions
variable {α : Type} {R : Disk → Disk → Prop} {Q : α → Prop} {setup : Setup} {direction : Direction}

theorem RunsInStep.onDisk {work : StateM Disk α} (h : RunsInStep R work Q) :
    RunsInStep (Sessions R) (SessionM.onDisk work) Q := by
  intro first second hsessions
  obtain ⟨heq, hrel, hpost⟩ := h _ _ hsessions.disk
  exact ⟨heq, ⟨hsessions.memory, hsessions.named, hrel⟩, hpost⟩

theorem Coupled.onDisk {P : α → α → Prop}
    {work work' : StateM Disk α} (h : Coupled R work work' P) :
    Coupled (Sessions R) (SessionM.onDisk work) (SessionM.onDisk work') P := by
  intro first second hsessions
  obtain ⟨hresult, hrel⟩ := h _ _ hsessions.disk
  exact ⟨hresult, hsessions.memory, hsessions.named, hrel⟩

theorem InStep.ofWork {work : Work α} (h : InStep R work fun a _ => Q a) :
    InStep (Sessions R) (SessionM.ofWork work) fun a _ => Q a :=
  RunsInStep.onDisk h.runs

theorem InStep.lift {work : StateM Session α} {R : Session → Session → Prop}
    (h : RunsInStep R work Q) : InStep R (ExceptT.lift work : SessionM α) fun a _ => Q a := by
  intro first second hsessions
  obtain ⟨heq, hrel, hpost⟩ := h _ _ hsessions
  refine ⟨congrArg Except.ok heq, hrel, fun a ha => ?_⟩
  cases ha
  exact hpost

theorem InStep.liftExcept {R : Session → Session → Prop} {result : Except Failure α}
    (h : ∀ a, result = .ok a → Q a) :
    InStep R (liftExcept result : SessionM α) fun a _ => Q a := by
  cases result with
  | ok a => exact .pure fun _ => h a rfl
  | error failure => exact .throw

theorem InStep.readStream {path : Files.Path} {options : Options}
    (h : ∀ d e, R d e → d.entry path = e.entry path) :
    InStep R (readStream path direction options) fun stream _ => stream.Named := by
  refine InStep.at (.bind (InStep.readBytes h) fun bytes _ _ => ?_)
  split
  · next stream hstream =>
    obtain ⟨lines, -, rfl⟩ := Option.map_eq_some_iff.1 hstream
    exact .pure fun _ => Stream.named_ofLines direction options lines
  · exact .throw

theorem InStep.stream (h : ∀ d e, R d e →
      d.entry (setup.settings.sdk.declarations direction) =
        e.entry (setup.settings.sdk.declarations direction)) :
    InStep (Sessions R) (setup.stream direction) fun stream _ => stream.Named := by
  unfold Setup.stream
  refine .get_bind (fun first second hsessions => by rw [hsessions.memory])
    fun first second hsessions => ?_
  split
  · next stream hstream => exact .pure fun _ => hsessions.named direction stream hstream
  · refine .bind (InStep.ofWork (InStep.readStream h)) fun stream _ hnamed => ?_
    refine .bind (Q := fun _ _ => True) ?_ fun _ _ _ => .pure fun _ => hnamed
    intro first second hsessions
    refine ⟨rfl, ⟨?_, ?_, hsessions.disk⟩, fun _ _ => trivial⟩
    · exact congrArg (fun memory => Memory.remember memory stream direction) hsessions.memory
    · intro other found hfound
      have hkept := hsessions.named other found
      cases direction <;> cases other
      · exact Option.some.inj hfound ▸ hnamed
      · exact hkept hfound
      · exact hkept hfound
      · exact Option.some.inj hfound ▸ hnamed

theorem InStep.streams (h : ∀ direction d e, R d e →
      d.entry (setup.settings.sdk.declarations direction) =
        e.entry (setup.settings.sdk.declarations direction)) :
    InStep (Sessions R) setup.streams fun streams _ => streams.Named := by
  have hread : ∀ direction, InStep (Sessions R) (ExceptT.lift (setup.stream direction).run)
      fun result _ => ∀ stream, result = .ok stream → stream.Named :=
    fun direction => InStep.lift (InStep.stream (h direction)).runs
  unfold Setup.streams
  refine .bind (hread .inputs) fun inputs _ hinputs => ?_
  refine .bind (hread .outputs) fun outputs _ houtputs => ?_
  refine .bind (InStep.liftExcept hinputs) fun inputs _ hinputs => ?_
  exact .bind (InStep.liftExcept houtputs) fun outputs _ houtputs =>
    .pure fun _ => ⟨hinputs, houtputs⟩

/-- All that types are planned for can be joined to a path. -/
structure TypesPlan.Named (plan : TypesPlan) : Prop where
  streams : plan.streams.Named
  modules : ∀ module ∈ plan.modules, IsName module

theorem InStep.planTypes
    (hentry : ∀ direction d e, R d e → d.entry (setup.settings.sdk.declarations direction) =
      e.entry (setup.settings.sdk.declarations direction))
    (hlist : ∀ d e, R d e → d.list setup.settings.sdk.enums = e.list setup.settings.sdk.enums) :
    InStep (Sessions R) setup.planTypes fun plan _ => plan.Named := by
  unfold Setup.planTypes
  refine .bind (InStep.streams hentry) fun streams _ hstreams => ?_
  refine .bind (InStep.ofWork (InStep.listIfPresent hlist)) fun enums _ henums => ?_
  refine .pure fun _ => ⟨hstreams, fun module hmodule => ?_⟩
  have hnamed : ∀ stream : Stream, stream.Named →
      module ∈ stream.modules.keys ++ stream.issues.map (·.scope.module) → IsName module := by
    intro stream hstream hmem
    rcases List.mem_append.1 hmem with hkey | hissue
    · exact isName_of_isIdentifier (hstream.modules module (ExtTreeMap.mem_keys.1 hkey))
    · obtain ⟨issue, hknown, rfl⟩ := List.mem_map.1 hissue
      exact isName_of_isIdentifier (hstream.issues issue hknown)
  rw [ExtTreeSet.mem_toList, ExtTreeSet.mem_ofList, List.contains_iff_mem, List.mem_append,
    List.mem_append] at hmodule
  rcases hmodule with (hinputs | houtputs) | hdirectory
  · exact hnamed _ hstreams.inputs hinputs
  · exact hnamed _ hstreams.outputs houtputs
  · exact isName_of_mem_directoryNames henums hdirectory

theorem RunsInStep.planModules
    (hlist : ∀ d e, R d e → d.list setup.settings.sourceRoot = e.list setup.settings.sourceRoot) :
    RunsInStep (Sessions R) setup.planModules fun result =>
      ∀ modules, result = .ok modules → ∀ module ∈ modules, IsName module := by
  have hnames : InStep R (moduleNames setup.settings.sourceRoot setup.settings.ignoredDirs)
      fun modules _ => ∀ module ∈ modules, IsName module := by
    refine .bind (InStep.list hlist) fun entries _ hentries => .pure fun _ module hmodule => ?_
    exact isName_of_mem_directoryNames hentries (List.mem_filter.1 hmodule).1
  exact RunsInStep.onDisk hnames.runs

end Sessions

/-- Goes through both stages, taking the units of each in some order. -/
def Setup.runStagesIn (setup : Setup) (order : List WorkUnit → List WorkUnit) :
    StateM Session (Plan × List Outcome) := do
  let types ← setup.planTypes.run
  let first ← SessionM.onDisk (setup.runUnits types (order (planned (types.map (·.units)))))
  let plan : Plan := ⟨types, ← setup.planModules⟩
  let second ← SessionM.onDisk (setup.runUnits types (order (planned plan.implementationUnits)))
  return (plan, first ++ second)

/-- A build that goes through its stages in a way of its own. -/
def Setup.buildBy (setup : Setup) (stages : StateM Session (Plan × List Outcome)) :
    SessionM Result := do
  SessionM.ofWork setup.makeOutputRoot
  let (plan, outcomes) ← ExceptT.lift stages
  return ⟨plan.report outcomes, outcomes.flatMap (·.announced)⟩

/-- Such a build by a session of its own, on a disk that nothing was written on yet. -/
def Setup.buildByAt (setup : Setup) (stages : StateM Session (Plan × List Outcome))
    (home : Location) (tree : FileTree) : Except Failure Result × FileTree :=
  let run := (setup.buildBy stages).run.run { disk := { home, tree } }
  (run.1, run.2.disk.tree)

/-- Plans both stages and then takes the units of both in some order. -/
def Setup.runMixed (setup : Setup) (order : List WorkUnit → List WorkUnit) :
    StateM Session (Plan × List Outcome) := do
  let types ← setup.planTypes.run
  let plan : Plan := ⟨types, ← setup.planModules⟩
  let outcomes ← SessionM.onDisk (setup.runUnits types (order plan.units))
  return (plan, outcomes)

/-- The stages with their units in a fixed order: those of one stage after those of the other, or
mixed. -/
inductive Setup.Orders (setup : Setup) : StateM Session (Plan × List Outcome) → Prop where
  | staged {order : List WorkUnit → List WorkUnit} (perm : ∀ units, (order units).Perm units) :
    Orders setup (setup.runStagesIn order)
  | mixed {order : List WorkUnit → List WorkUnit} (perm : ∀ units, (order units).Perm units) :
    Orders setup (setup.runMixed order)

/-- The stages with their units one after the other as they are planned, or in any other order
where all files are named by one name. -/
inductive Setup.InOrder (setup : Setup) : StateM Session (Plan × List Outcome) → Prop where
  | planned : InOrder setup setup.runStages
  | other {stages : StateM Session (Plan × List Outcome)} (orders : setup.Orders stages)
    (extension : '/' ∉ setup.settings.extension.toList) : InOrder setup stages

section Run
variable {setup : Setup} {start : Session} {ready : Disk}
  {order : List WorkUnit → List WorkUnit} {stages : StateM Session (Plan × List Outcome)}

theorem run_ofWork {α : Type} {work : Work α} : (SessionM.ofWork work).run.run start =
    ((work.run.run start.disk).1, { start with disk := (work.run.run start.disk).2 }) := rfl

theorem Setup.run_buildBy_error {failure : Failure}
    (h : setup.makeOutputRoot.run.run start.disk = (.error failure, ready)) :
    (setup.buildBy stages).run.run start = (.error failure, { start with disk := ready }) := by
  unfold Setup.buildBy
  rw [run_bind, run_ofWork, h]

theorem Setup.run_buildBy (h : setup.makeOutputRoot.run.run start.disk = (.ok (), ready)) :
    (setup.buildBy stages).run.run start =
      (let passed := stages.run ⟨start.memory, ready⟩
      (.ok ⟨passed.1.1.report passed.1.2, passed.1.2.flatMap (·.announced)⟩, passed.2)) := by
  unfold Setup.buildBy
  rw [run_bind, run_ofWork, h]
  simp only
  rw [run_bind, run_lift]
  rfl

theorem Setup.run_buildBy_of_stages {plan : Plan} {outcomes : List Outcome} {session : Session}
    (h : setup.makeOutputRoot.run.run start.disk = (.ok (), ready))
    (hstages : stages.run ⟨start.memory, ready⟩ = ((plan, outcomes), session)) :
    (setup.buildBy stages).run.run start =
      (.ok ⟨plan.report outcomes, outcomes.flatMap (·.announced)⟩, session) := by
  rw [run_buildBy h, hstages]

theorem Setup.run_build_error {failure : Failure}
    (h : setup.makeOutputRoot.run.run start.disk = (.error failure, ready)) :
    setup.build.run.run start = (.error failure, { start with disk := ready }) :=
  run_buildBy_error h

theorem Setup.run_build (h : setup.makeOutputRoot.run.run start.disk = (.ok (), ready)) :
    setup.build.run.run start =
      (let passed := setup.runStages.run ⟨start.memory, ready⟩
      (.ok ⟨passed.1.1.report passed.1.2, passed.1.2.flatMap (·.announced)⟩, passed.2)) :=
  run_buildBy h

theorem Setup.runStages_eq : setup.runStages = setup.runStagesIn id := rfl

theorem Setup.orders_runStages : setup.Orders setup.runStages := by
  rw [runStages_eq]
  exact .staged fun _ => .refl _

theorem Setup.InOrder.orders (h : setup.InOrder stages) : setup.Orders stages := by
  cases h with
  | planned => exact setup.orders_runStages
  | other orders => exact orders

theorem Setup.run_runStagesIn : (setup.runStagesIn order).run start =
    (let types := (setup.planTypes.run.run start).1
    let session := (setup.planTypes.run.run start).2
    let first := (setup.runUnits types (order (planned (types.map (·.units))))).run session.disk
    let found := (moduleNames setup.settings.sourceRoot setup.settings.ignoredDirs).run.run first.2
    let plan : Plan := ⟨types, found.1⟩
    let second := (setup.runUnits types (order (planned plan.implementationUnits))).run found.2
    ((plan, first.1 ++ second.1), { session with disk := second.2 })) := rfl

theorem Setup.run_runMixed : (setup.runMixed order).run start =
    (let types := (setup.planTypes.run.run start).1
    let session := (setup.planTypes.run.run start).2
    let found := (moduleNames setup.settings.sourceRoot setup.settings.ignoredDirs).run.run
      session.disk
    let plan : Plan := ⟨types, found.1⟩
    let units := (setup.runUnits types (order plan.units)).run found.2
    ((plan, units.1), { session with disk := units.2 })) := rfl

end Run

namespace Scene
variable {scene : Scene} {grounds : List FileTree}

theorem Fits.entry_declarations (fits : scene.Fits grounds) (direction : Direction) (d e : Disk)
    (h : scene.Alike grounds d e) :
    d.entry (scene.setup.settings.sdk.declarations direction) =
      e.entry (scene.setup.settings.sdk.declarations direction) := by
  have hstem : IsName direction.stem := by cases direction <;> decide
  have hpath : scene.setup.settings.sdk.declarations direction = sourcePath scene.setup.settings
    [typesName, fileName direction.stem scene.setup.settings.extension] := rfl
  rw [hpath]
  exact (fits.site_alike fits.notTypes.symm isName_typesName).entry (.own (Nat.le_succ 1))
    (by simpa using ⟨isName_typesName, isName_fileName hstem fits.extension⟩) h

theorem Fits.list_enums (fits : scene.Fits grounds) (d e : Disk) (h : scene.Alike grounds d e) :
    d.list scene.setup.settings.sdk.enums = e.list scene.setup.settings.sdk.enums := by
  have hpath : scene.setup.settings.sdk.enums =
    sourcePath scene.setup.settings [typesName, enumsName] := rfl
  rw [hpath]
  exact (fits.site_alike fits.notTypes.symm isName_typesName).list (.own (Nat.le_refl 1))
    (by simpa using ⟨isName_typesName, isName_enumsName⟩) h

theorem Fits.list_source (fits : scene.Fits grounds) (d e : Disk) (h : scene.Alike grounds d e) :
    d.list scene.setup.settings.sourceRoot = e.list scene.setup.settings.sourceRoot :=
  @Alike.list_sourcePath _ _ _ _ [] h fits (by simp) fun _ _ hfirst =>
    not_hidden_of_prefix_singleton hfirst

/-- Outcomes of one unit that are the same unless the unit is of the module itself. -/
def Matching (scene : Scene) (first second : Outcome) : Prop :=
  first.unit = second.unit ∧ (first.unit.name ≠ scene.module → first = second)

section Units
variable {types : Except Failure TypesPlan} {unit : WorkUnit} {d e : Disk}

theorem Alike.of_touched {d' e' : Disk} (h : scene.Alike grounds d e)
    (hd : scene.Touched grounds d d' d') (he : scene.Touched grounds e e' e') :
    scene.Alike grounds d' e' where
  sound := hd.sound
  sound' := he.sound
  same hhidden hown := (hd.same hown).trans ((h.same hhidden hown).trans (he.same hown).symm)

theorem Fits.runUnit (fits : scene.Fits grounds) (htypes : TypesNamed types)
    (hname : IsName unit.name) : Coupled (scene.Alike grounds) (scene.setup.runUnit types unit)
      (scene.setup.runUnit types unit) scene.Matching := by
  intro d e h
  by_cases hmodule : unit.name = scene.module
  · have htouched : ∀ before, RunsInStep (scene.Touched grounds before)
        (scene.setup.runUnit types unit) (·.unit = unit) := by
      intro before
      have hsite : Site (scene.Touched grounds before) _ grounds _ _ scene.module :=
        fits.site_touched (hmodule ▸ hname)
      exact Site.runUnit (hmodule ▸ hsite) fits.rootFiles_touched htypes
    obtain ⟨-, hd, hunit⟩ := htouched d d d ⟨h.sound, rfl, fun _ => rfl⟩
    obtain ⟨-, he, hunit'⟩ := htouched e e e ⟨h.sound', rfl, fun _ => rfl⟩
    refine ⟨⟨hunit.trans hunit'.symm, fun hne => ?_⟩, h.of_touched hd he⟩
    exact absurd hmodule (hunit ▸ hne)
  · obtain ⟨heq, halike, -⟩ := Site.runUnit (fits.site_alike hmodule hname) fits.rootFiles_alike
      htypes d e h
    exact ⟨⟨congrArg Outcome.unit heq, fun _ => heq⟩, halike⟩

theorem Fits.runUnits (fits : scene.Fits grounds) (htypes : TypesNamed types)
    {units : List WorkUnit} (hnames : ∀ unit ∈ units, IsName unit.name) :
    Coupled (scene.Alike grounds) (scene.setup.runUnits types units)
      (scene.setup.runUnits types units) (List.Forall₂ scene.Matching) := by
  unfold Setup.runUnits
  induction units with
  | nil => exact .pure .nil
  | cons unit units ih =>
    obtain ⟨hunit, hunits⟩ := List.forall_mem_cons.1 hnames
    rw [List.mapM_cons]
    refine .bind (fits.runUnit htypes hunit) fun a b hmatching => ?_
    exact .bind (ih hunits) fun _ _ hrest => .pure (.cons hmatching hrest)

end Units

section Stages
variable {first second : Session}

theorem isName_of_mem_typesUnits {types : Except Failure TypesPlan}
    (h : ∀ plan, types = .ok plan → plan.Named) :
    ∀ unit ∈ planned (types.map (·.units)), IsName unit.name := by
  intro unit hunit
  cases types with
  | error failure => cases hunit
  | ok plan =>
    obtain ⟨module, hmodule, rfl⟩ := List.mem_map.1 hunit
    exact (h plan rfl).modules module hmodule

theorem isName_of_mem_implementationUnits {types : Except Failure TypesPlan}
    {result : Except Failure (List String)}
    (h : ∀ modules, result = .ok modules → ∀ module ∈ modules, IsName module) :
    ∀ unit ∈ planned (Plan.implementationUnits ⟨types, result⟩), IsName unit.name := by
  intro unit hunit
  cases result with
  | error failure => cases hunit
  | ok modules =>
    rcases List.mem_cons.1 hunit with rfl | hunit
    · exact (by decide : IsName coreName)
    · obtain ⟨module, hmodule, rfl⟩ := List.mem_map.1 hunit
      exact h modules rfl module hmodule

theorem Fits.planTypes (fits : scene.Fits grounds) :
    Coupled (Sessions (scene.Alike grounds)) scene.setup.planTypes.run scene.setup.planTypes.run
      fun types types' => types = types' ∧ ∀ plan, types = .ok plan → plan.Named :=
  (InStep.planTypes fits.entry_declarations fits.list_enums).runs.coupled

theorem Fits.runUnitsIn (fits : scene.Fits grounds) {types : Except Failure TypesPlan}
    (hplanned : ∀ plan, types = .ok plan → plan.Named) {units order : List WorkUnit}
    (horder : order.Perm units) (hnames : ∀ unit ∈ units, IsName unit.name) :
    Coupled (Sessions (scene.Alike grounds)) (SessionM.onDisk (scene.setup.runUnits types order))
      (SessionM.onDisk (scene.setup.runUnits types order)) (List.Forall₂ scene.Matching) :=
  Coupled.onDisk (fits.runUnits (fun plan hplan => (hplanned plan hplan).streams)
    fun unit hunit => hnames unit (horder.mem_iff.1 hunit))

/-- In whatever order the units are taken, both builds plan the same ones, and run them to outcomes
that match. -/
theorem Fits.stages (fits : scene.Fits grounds) {stages : StateM Session (Plan × List Outcome)}
    (horders : scene.setup.Orders stages) :
    Coupled (Sessions (scene.Alike grounds)) stages stages
      fun first second => first.1 = second.1 ∧ List.Forall₂ scene.Matching first.2 second.2 := by
  have hmodules := (RunsInStep.planModules fits.list_source).coupled
  cases horders with
  | staged perm =>
    refine .bind fits.planTypes ?_
    rintro types _ ⟨rfl, hplanned⟩
    refine .bind (fits.runUnitsIn hplanned (perm _) (isName_of_mem_typesUnits hplanned))
      fun written written' hwritten => .bind hmodules ?_
    rintro modules _ ⟨rfl, hnames⟩
    refine .bind (fits.runUnitsIn hplanned (perm _) (isName_of_mem_implementationUnits hnames))
      fun built built' hbuilt => .pure ⟨rfl, List.rel_append hwritten hbuilt⟩
  | mixed perm =>
    refine .bind fits.planTypes ?_
    rintro types _ ⟨rfl, hplanned⟩
    refine .bind hmodules ?_
    rintro modules _ ⟨rfl, hnames⟩
    refine .bind (fits.runUnitsIn hplanned (perm _) fun unit hunit => ?_)
      fun done done' hdone => .pure ⟨rfl, hdone⟩
    rcases List.mem_append.1 hunit with hunit | hunit
    · exact isName_of_mem_typesUnits hplanned unit hunit
    · exact isName_of_mem_implementationUnits hnames unit hunit

end Stages

end Scene

end Unbundle.Build
