import Unbundle.Proofs.Build.Delivered

/-! A ledger of a build. It does the same works in the same order, but all that it keeps of them is
what each one came to: the files of each package, and the types of each scope of a module. The
outcomes that a build puts its report together from are read off the ledger. -/

namespace Unbundle.Build
open Unbundle.Files Unbundle.Types

/-- The types of a module: the issues with it, and what each scope came to that was tried. -/
structure TypesTrial where
  module : String
  issues : List Declaration.Issue
  scopes : List (Option String × Except Failure TypesSummary)

/-- A package, and what the work on its files came to. -/
structure PackageTrial where
  package : Package
  files : Except Failure Unit

/-- What the two stages of a build came to. -/
structure Ledger where
  types : Except Failure (List TypesTrial)
  packages : Except Failure (List PackageTrial)

def failure? {α : Type} : Except Failure α → Option Failure
  | .ok _ => none
  | .error failure => some failure

def Package.unit (package : Package) : WorkUnit :=
  if package.dependsOnCore then .implementation package.name else .core

namespace TypesTrial

def failures (trial : TypesTrial) : List Failure :=
  trial.issues.map .structural ++ trial.scopes.filterMap (failure? ·.2)

def records (trial : TypesTrial) : List FailureRecord := trial.failures.map (⟨trial.module, ·⟩)

def outcome (trial : TypesTrial) : Outcome where
  unit := .types trial.module
  typesWritten := trial.scopes.countP (·.2.isOk)
  failures := trial.failures

end TypesTrial

namespace PackageTrial

/-- A package is made when its files are written and its metadata is. -/
def settled (hook : MetadataHook) (trial : PackageTrial) : Except Failure Unit :=
  trial.files.bind fun _ => hook trial.package

def outcome (hook : MetadataHook) (trial : PackageTrial) : Outcome where
  unit := Package.unit trial.package
  built := (trial.settled hook).isOk
  failures := (failure? (trial.settled hook)).toList
  announced := if trial.files.isOk then [trial.package] else []

end PackageTrial

namespace Setup

def writePackage (setup : Setup) (package : Package) : Work Unit :=
  let settings := setup.settings
  if package.dependsOnCore then discard (settings.adapter.adaptModule package.name)
  else discard (writeCore settings.sdk settings.packages)

def tryPackage (setup : Setup) (package : Package) : StateM Disk PackageTrial := do
  return ⟨package, ← (setup.writePackage package).run⟩

def tryScope (setup : Setup) (streams : Streams) (module : String) (version : Option String) :
    StateM Disk (Option String × Except Failure TypesSummary) := do
  return (version, ← (setup.writeScopeTypes streams module version).run)

def tryTypes (setup : Setup) (streams : Streams) (module : String) : StateM Disk TypesTrial := do
  let issues := streams.issuesOf module
  let scopes := if issues.isEmpty then streams.scopesOf module else []
  return ⟨module, issues, ← scopes.mapM (setup.tryScope streams module)⟩

/-- The trials of a stage; none when it cannot start. -/
def tryStage {α β : Type} (trial : α → StateM Disk β) :
    Except Failure (List α) → StateM Disk (Except Failure (List β))
  | .ok list => .ok <$> list.mapM trial
  | .error failure => return .error failure

def tryAllTypes (setup : Setup) : Except Failure TypesPlan →
    StateM Disk (Except Failure (List TypesTrial))
  | .ok plan => tryStage (setup.tryTypes plan.streams) (.ok plan.modules)
  | .error failure => return .error failure

/-- The packages are listed when all types are written. -/
def ledger (setup : Setup) : SessionM Ledger := do
  SessionM.ofWork setup.makeOutputRoot
  let plan ← ExceptT.lift setup.planTypes.run
  let types ← ExceptT.lift (SessionM.onDisk (setup.tryAllTypes plan))
  let packages ← ExceptT.lift (SessionM.onDisk setup.allPackages.run)
  return ⟨types, ← ExceptT.lift (SessionM.onDisk (tryStage setup.tryPackage packages))⟩

section Trials
variable {setup : Setup} {streams : Streams} {module : String} {d : Disk} {package : Package}
  {types : Except Failure TypesPlan} {outcome : Outcome} {versions : List (Option String)}

theorem run_mapM_cons {α β : Type} {a : α} {list : List α} {trial : α → StateM Disk β} :
    ((a :: list).mapM trial).run d =
      (let first := (trial a).run d
      let rest := (list.mapM trial).run first.2
      (first.1 :: rest.1, rest.2)) := by
  rw [List.mapM_cons]
  rfl

theorem run_foldlM_countTypes : (versions.foldlM (fun outcome version => countTypes outcome
      (setup.writeScopeTypes streams module version)) outcome).run d =
    (let trials := (versions.mapM (setup.tryScope streams module)).run d
    ({ outcome with
        typesWritten := outcome.typesWritten + trials.1.countP (·.2.isOk)
        failures := outcome.failures ++ trials.1.filterMap (failure? ·.2) }, trials.2)) := by
  induction versions generalizing outcome d with
  | nil =>
    have htrials : (([] : List (Option String)).mapM (setup.tryScope streams module)).run d =
        ([], d) := rfl
    rw [htrials]
    simp only [List.countP_nil, List.filterMap_nil, Nat.add_zero, List.append_nil]
    rfl
  | cons version versions ih =>
    have hfold : ((version :: versions).foldlM (fun outcome version => countTypes outcome
        (setup.writeScopeTypes streams module version)) outcome).run d =
        (versions.foldlM (fun outcome version => countTypes outcome
          (setup.writeScopeTypes streams module version))
          ((countTypes outcome (setup.writeScopeTypes streams module version)).run d).1).run
          ((countTypes outcome (setup.writeScopeTypes streams module version)).run d).2 := by
      rw [List.foldlM_cons]
      rfl
    have htry : (setup.tryScope streams module version).run d =
        (let written := (setup.writeScopeTypes streams module version).run.run d
        ((version, written.1), written.2)) := rfl
    rw [hfold, run_mapM_cons, htry, ih, Workplace.run_countTypes]
    rcases (setup.writeScopeTypes streams module version).run.run d with ⟨result, d'⟩
    cases result with
    | ok summary => simp [failure?, Except.isOk, Except.toBool, Nat.add_assoc, Nat.add_comm 1]
    | error failure => simp [failure?, Except.isOk, Except.toBool]

theorem run_runTypes : (setup.runTypes streams module).run d =
    (((setup.tryTypes streams module).run d).1.outcome,
      ((setup.tryTypes streams module).run d).2) := by
  have htry : (setup.tryTypes streams module).run d =
      (let scopes := if (streams.issuesOf module).isEmpty then streams.scopesOf module else []
      let trials := (scopes.mapM (setup.tryScope streams module)).run d
      (⟨module, streams.issuesOf module, trials.1⟩, trials.2)) := rfl
  rw [htry]
  by_cases hissues : (streams.issuesOf module).isEmpty = true
  · rw [runTypes_eq hissues, run_foldlM_countTypes]
    simp [TypesTrial.outcome, TypesTrial.failures, List.isEmpty_iff.1 hissues]
  · have hempty : (([] : List (Option String)).mapM (setup.tryScope streams module)).run d =
        ([], d) := rfl
    simp only [hissues, Bool.false_eq_true, if_false, hempty]
    unfold runTypes
    simp only [hissues, Bool.false_eq_true, if_false]
    simp [TypesTrial.outcome, TypesTrial.failures]
    rfl

def HasPackage (setup : Setup) (package : Package) : Prop :=
  package = .core setup.settings.packages ∨
    ∃ module, package = .module setup.settings.packages module

theorem run_runUnit_package (h : setup.HasPackage package) :
    (setup.runUnit types (Package.unit package)).run d =
      (((setup.tryPackage package).run d).1.outcome setup.hook,
        ((setup.tryPackage package).run d).2) := by
  have hunit : setup.runUnit types (Package.unit package) =
      setup.makePackage (Package.unit package) package (setup.writePackage package) := by
    rcases h with rfl | ⟨module, rfl⟩ <;> rfl
  have htry : (setup.tryPackage package).run d =
      (⟨package, ((setup.writePackage package).run.run d).1⟩,
        ((setup.writePackage package).run.run d).2) := rfl
  rw [hunit, htry, Workplace.run_makePackage]
  rcases (setup.writePackage package).run.run d with ⟨result, d'⟩
  unfold PackageTrial.outcome PackageTrial.settled
  cases result with
  | error failure => rfl
  | ok =>
    simp only [Except.bind]
    cases setup.hook package <;> rfl

theorem run_runUnits_map {α β : Type} {list : List α} {unit : α → WorkUnit}
    {trial : α → StateM Disk β} {outcome : β → Outcome}
    (h : ∀ a ∈ list, ∀ d, (setup.runUnit types (unit a)).run d =
      (outcome ((trial a).run d).1, ((trial a).run d).2)) :
    (setup.runUnits types (list.map unit)).run d =
      (((list.mapM trial).run d).1.map outcome, ((list.mapM trial).run d).2) := by
  induction list generalizing d with
  | nil => rfl
  | cons a list ih =>
    obtain ⟨ha, hlist⟩ := List.forall_mem_cons.1 h
    rw [List.map_cons, Workplace.run_runUnits_cons, ha, ih hlist, run_mapM_cons]
    rfl

theorem exists_of_mem_run_mapM {α β : Type} {list : List α} {trial : α → StateM Disk β} {b : β}
    (h : b ∈ ((list.mapM trial).run d).1) : ∃ a ∈ list, ∃ d', b = ((trial a).run d').1 := by
  induction list generalizing d with
  | nil => cases h
  | cons a list ih =>
    rw [run_mapM_cons] at h
    rcases List.mem_cons.1 h with rfl | h
    · exact ⟨a, List.mem_cons_self, d, rfl⟩
    · obtain ⟨a', ha', hb⟩ := ih h
      exact ⟨a', List.mem_cons_of_mem _ ha', hb⟩

theorem map_run_mapM {α β γ : Type} {list : List α} {trial : α → StateM Disk β} {key : α → γ}
    {found : β → γ} (h : ∀ a ∈ list, ∀ d, found ((trial a).run d).1 = key a) :
    ((list.mapM trial).run d).1.map found = list.map key := by
  induction list generalizing d with
  | nil => rfl
  | cons a list ih =>
    obtain ⟨ha, hlist⟩ := List.forall_mem_cons.1 h
    rw [run_mapM_cons, List.map_cons, ha, ih hlist, List.map_cons]

theorem run_allPackages : setup.allPackages.run.run d =
    (let found := (moduleNames setup.settings.sourceRoot setup.settings.ignoredDirs).run.run d
    (found.1.map fun modules => .core setup.settings.packages ::
      modules.map (.module setup.settings.packages), found.2)) := by
  unfold allPackages packagesOf
  simp only
  rw [run_bind]
  rcases (moduleNames setup.settings.sourceRoot setup.settings.ignoredDirs).run.run d with
    ⟨result, d'⟩
  cases result <;> rfl

end Trials

end Setup

namespace Ledger

def outcomes (hook : MetadataHook) (ledger : Ledger) : List Outcome :=
  (ledger.types.toOption.getD []).map (·.outcome) ++
    (ledger.packages.toOption.getD []).map (·.outcome hook)

/-- A ledger is about the units of a plan. -/
structure Follows (ledger : Ledger) (setup : Setup) (plan : Plan) : Prop where
  typesUnits : plan.typesUnits = ledger.types.map fun trials => trials.map (·.outcome.unit)
  packages : ledger.packages.map (fun trials => trials.map (·.package)) =
    plan.modules.map fun modules => .core setup.settings.packages ::
      modules.map (.module setup.settings.packages)
  nodup : plan.units.Nodup
  ascending : ∀ modules, plan.modules = .ok modules → modules.Pairwise (· < ·)

section Run
variable {setup : Setup} {start after : Session} {result : Result} {types : Except Failure TypesPlan}
  {packages : Except Failure (List Package)} {d ready : Disk}

theorem run_typesUnits : (setup.runUnits types (planned (types.map (·.units)))).run d =
    ((((setup.tryAllTypes types).run d).1.toOption.getD []).map (·.outcome),
      ((setup.tryAllTypes types).run d).2) := by
  cases types with
  | error failure => rfl
  | ok plan =>
    exact Setup.run_runUnits_map fun module _ d => Setup.run_runTypes

theorem run_packageUnits (h : ∀ list, packages = .ok list → ∀ package ∈ list,
      setup.HasPackage package) :
    (setup.runUnits types (planned (packages.map (·.map Package.unit)))).run d =
      ((((Setup.tryStage setup.tryPackage packages).run d).1.toOption.getD []).map
          (·.outcome setup.hook),
        ((Setup.tryStage setup.tryPackage packages).run d).2) := by
  cases packages with
  | error failure => rfl
  | ok list =>
    exact Setup.run_runUnits_map fun package hpackage d =>
      Setup.run_runUnit_package (h list rfl package hpackage)

theorem run_ledger (h : setup.makeOutputRoot.run.run start.disk = (.ok (), ready)) :
    setup.ledger.run.run start =
      (let types := setup.planTypes.run.run ⟨start.memory, ready⟩
      let first := (setup.tryAllTypes types.1).run types.2.disk
      let packages := setup.allPackages.run.run first.2
      let second := (Setup.tryStage setup.tryPackage packages.1).run packages.2
      (.ok ⟨first.1, second.1⟩, { types.2 with disk := second.2 })) := by
  unfold Setup.ledger
  rw [run_bind, run_ofWork, h]
  rfl

theorem map_unit_packages {modules : Except Failure (List String)} :
    (modules.map fun modules => Package.core setup.settings.packages ::
      modules.map (Package.module setup.settings.packages)).map (·.map Package.unit) =
      Plan.implementationUnits ⟨types, modules⟩ := by
  cases modules with
  | error failure => rfl
  | ok modules =>
    simp only [Except.map, Plan.implementationUnits, List.map_cons, List.map_map]
    rfl

theorem hasPackage_of_mem {modules : Except Failure (List String)} {list : List Package}
    (h : (modules.map fun modules => Package.core setup.settings.packages ::
      modules.map (Package.module setup.settings.packages)) = .ok list) :
    ∀ package ∈ list, setup.HasPackage package := by
  cases modules with
  | error failure => cases h
  | ok modules =>
    cases h
    intro package hpackage
    rcases List.mem_cons.1 hpackage with rfl | hpackage
    · exact .inl rfl
    · obtain ⟨module, -, rfl⟩ := List.mem_map.1 hpackage
      exact .inr ⟨module, rfl⟩

theorem map_run_tryStage {α β γ : Type} {list : Except Failure (List α)} {trial : α → StateM Disk β}
    {key : α → γ} {found : β → γ} (h : ∀ a d, found ((trial a).run d).1 = key a) :
    ((Setup.tryStage trial list).run d).1.map (·.map found) = list.map (·.map key) := by
  cases list with
  | error failure => rfl
  | ok list => exact congrArg Except.ok (Setup.map_run_mapM fun a _ => h a)

theorem map_unit_tryAllTypes : ((setup.tryAllTypes types).run d).1.map (·.map (·.outcome.unit)) =
    types.map (·.units) := by
  cases types with
  | error failure => rfl
  | ok plan =>
    exact @map_run_tryStage d _ _ _ (.ok plan.modules) (setup.tryTypes plan.streams)
      WorkUnit.types (·.outcome.unit) fun _ _ => rfl

theorem map_package_tryStage : ((Setup.tryStage setup.tryPackage packages).run d).1.map
    (·.map (·.package)) = packages := by
  refine (map_run_tryStage fun _ _ => rfl).trans (?_ : packages.map (·.map id) = packages)
  cases packages <;> simp [Except.map]

/-- What a build reports and announces comes from the outcomes in its ledger. -/
theorem exists_of_build (hbuild : setup.build.run.run start = (.ok result, after)) :
    ∃ ledger plan, setup.ledger.run.run start = (.ok ledger, after) ∧
      ledger.Follows setup plan ∧
      result = ⟨plan.report (ledger.outcomes setup.hook),
        (ledger.outcomes setup.hook).flatMap (·.announced)⟩ := by
  obtain ⟨ready, hmake⟩ := Setup.exists_ready_of_build hbuild
  rw [Setup.run_build hmake, Workplace.run_runStages] at hbuild
  rw [run_ledger hmake]
  cases htypes : setup.planTypes.run.run ⟨start.memory, ready⟩ with
  | mk types session =>
    simp only [htypes, Setup.run_allPackages] at hbuild ⊢
    rw [run_typesUnits] at hbuild
    cases hfirst : (setup.tryAllTypes types).run session.disk with
    | mk first d =>
      cases hfound : (moduleNames setup.settings.sourceRoot setup.settings.ignoredDirs).run.run d with
      | mk modules d' =>
        simp only [hfirst, hfound] at hbuild ⊢
        rw [← map_unit_packages, run_packageUnits fun list => hasPackage_of_mem] at hbuild
        obtain ⟨hresult, rfl⟩ := Prod.mk.inj hbuild
        have hascending : ∀ names, modules = .ok names → names.Pairwise (· < ·) :=
          fun names hnames => ascending_moduleNames (hnames ▸ hfound)
        have hunits : ((setup.tryAllTypes types).run session.disk).1.map
            (·.map (·.outcome.unit)) = types.map (·.units) := map_unit_tryAllTypes
        rw [hfirst] at hunits
        refine ⟨_, ⟨types, modules⟩, rfl, ⟨hunits.symm, map_package_tryStage, ?_, hascending⟩,
          (Except.ok.inj hresult).symm⟩
        refine Plan.nodup_units (fun plan hplan => ?_) fun names hnames => ?_
        · obtain rfl : types = .ok plan := hplan
          exact nodup_modules_of_planTypes htypes
        · exact nodup_of_ascending (hascending names hnames)

end Run

end Ledger

end Unbundle.Build
