import Unbundle.Proofs.Build.Ledger
import Unbundle.Proofs.Build.Isolation
import Unbundle.Proofs.Build.Opened

/-! A report accounts for its build. What is in it is what the ledger of the build says: which
packages were made and handed to the metadata hook, and each failure once, ordered by module. -/

namespace Unbundle
variable {α : Type} {le : α → α → Bool}

theorem stableSort_eq_nil {xs : List α} : stableSort le xs = [] ↔ xs = [] := by
  have hlength : (stableSort le xs).length = xs.length := (stableSort_perm xs).length_eq
  rw [← List.length_eq_zero_iff, hlength, List.length_eq_zero_iff]

end Unbundle

namespace Unbundle.Build
open Unbundle.Files Unbundle.Types

section Names
variable {names : List String} {name : String} {report : Report}

theorem mem_dropRepeats : name ∈ dropRepeats names ↔ name ∈ names := by
  fun_induction dropRepeats names with
  | case1 => rfl
  | case2 x => rfl
  | case3 x rest ih => simp [ih]
  | case4 x y rest hne ih => simp [ih]

theorem pairwise_dropRepeats (h : names.Pairwise (· ≤ ·)) :
    (dropRepeats names).Pairwise (· < ·) := by
  fun_induction dropRepeats names with
  | case1 => exact List.Pairwise.nil
  | case2 x => exact List.pairwise_singleton _ _
  | case3 x rest ih => exact ih h.of_cons
  | case4 x y rest hne ih =>
    refine List.Pairwise.cons (fun z hz => ?_) (ih h.of_cons)
    obtain ⟨hx, hrest⟩ := List.pairwise_cons.1 h
    have hyz : y ≤ z := by
      rcases List.mem_cons.1 (mem_dropRepeats.1 hz) with rfl | hz
      · exact String.le_refl _
      · exact (List.pairwise_cons.1 hrest).1 z hz
    -- `z` below `x` would put `y` between them
    refine String.not_le.1 fun hzx => hne (String.le_antisymm (hx y List.mem_cons_self) ?_)
    exact String.le_trans hyz hzx

end Names

section Collect
variable {outcomes part : List Outcome} {outcome : Outcome}

theorem find?_unit (hnodup : (outcomes.map (·.unit)).Nodup) (h : outcome ∈ outcomes) :
    outcomes.find? (·.unit = outcome.unit) = some outcome := by
  induction outcomes with
  | nil => cases h
  | cons first outcomes ih =>
    rw [List.map_cons, List.nodup_cons] at hnodup
    rcases List.mem_cons.1 h with rfl | hmem
    · exact List.find?_cons_of_pos (by simp)
    · have hne : first.unit ≠ outcome.unit := fun heq =>
        hnodup.1 (heq ▸ List.mem_map_of_mem hmem)
      rw [List.find?_cons_of_neg (by simpa using hne)]
      exact ih hnodup.2 hmem

theorem filter_sortFailures {report : Report} {module : String} :
    report.sortFailures.failures.filter (·.module = module) =
      report.failures.filter (·.module = module) := by
  refine (filter_stableSort total_module trans_module _ _).trans
    (stableSort_of_forall fun a ha b hb => ?_)
  have hmodule : ∀ record ∈ report.failures.filter (·.module = module),
      record.module = module := fun record hrecord => by simpa using (List.mem_filter.1 hrecord).2
  simp [hmodule a ha, hmodule b hb]

theorem pairwise_sortFailures {report : Report} :
    report.sortFailures.failures.Pairwise (·.module ≤ ·.module) :=
  (pairwise_stableSort total_module trans_module report.failures).imp fun h => by simpa using h

theorem collect_map_unit (hnodup : (outcomes.map (·.unit)).Nodup)
    (hpart : ∀ outcome ∈ part, outcome ∈ outcomes) : collect (part.map (·.unit)) outcomes =
      { packages := (part.filter (·.built)).map (·.unit.name)
        typesWritten := part.foldl (fun count outcome => count + outcome.typesWritten) 0
        failures := part.flatMap Outcome.records } := by
  have hfound : (part.map (·.unit)).filterMap (fun unit => outcomes.find? (·.unit = unit)) =
      part := by
    rw [List.filterMap_map]
    refine (List.filterMap_congr fun outcome houtcome => ?_).trans List.filterMap_some
    exact find?_unit hnodup (hpart outcome houtcome)
  unfold collect
  simp only [hfound]
  rfl

end Collect

namespace Ledger

def trials (ledger : Ledger) : List PackageTrial := ledger.packages.toOption.getD []

/-- One record for each package that was not made, or one for all when they could not be listed. -/
def packageRecords (hook : MetadataHook) (ledger : Ledger) : List FailureRecord :=
  match ledger.packages with
  | .ok trials => trials.filterMap fun trial =>
      (failure? (trial.settled hook)).map (⟨trial.package.name, ·⟩)
  | .error failure => [⟨modulesStage, failure⟩]

/-- A record for each issue with a module and for each scope that failed, or one for the stage. -/
def typesRecords (ledger : Ledger) : List FailureRecord :=
  match ledger.types with
  | .ok trials => trials.flatMap TypesTrial.records
  | .error failure => [⟨typesStage, failure⟩]

/-- All went well: both stages started, no module had issues, and all scopes and packages were
written, with the metadata of the packages. -/
structure Clean (hook : MetadataHook) (ledger : Ledger) : Prop where
  types : ∃ trials, ledger.types = .ok trials ∧
    ∀ trial ∈ trials, trial.issues = [] ∧ ∀ scope ∈ trial.scopes, scope.2.isOk = true
  packages : ∃ trials, ledger.packages = .ok trials ∧
    ∀ trial ∈ trials, (trial.settled hook).isOk = true

/-- A result says what is in a ledger. The packages are those that were made, in the order in which
they were listed; announced are those whose files were written. The failures come by module, those
of its package first, and the names of the modules that failed are given once each. -/
structure Accounts (ledger : Ledger) (hook : MetadataHook) (result : Result) : Prop where
  packages : result.report.packages =
    (ledger.trials.filter fun trial => (trial.settled hook).isOk).map (·.package.name)
  announced : result.announced =
    (ledger.trials.filter fun trial => trial.files.isOk).map (·.package)
  ordered : result.report.failures.Pairwise (·.module ≤ ·.module)
  failures : ∀ module, result.report.failures.filter (·.module = module) =
    (ledger.packageRecords hook).filter (·.module = module) ++
      ledger.typesRecords.filter (·.module = module)
  ascending : result.report.failedModules.Pairwise (· < ·)
  failed : ∀ module, module ∈ result.report.failedModules ↔
    ∃ record ∈ result.report.failures, record.module = module
  success : result.report.isSuccess = true ↔ ledger.Clean hook

section Report
variable {ledger : Ledger} {setup : Setup} {plan : Plan}

theorem Follows.implementationUnits (h : ledger.Follows setup plan) :
    plan.implementationUnits =
      ledger.packages.map fun trials => trials.map (·.outcome setup.hook |>.unit) := by
  have hunits : plan.implementationUnits =
      (ledger.packages.map fun trials => trials.map (·.package)).map (·.map Package.unit) := by
    rw [h.packages]
    exact map_unit_packages.symm
  rw [hunits]
  cases ledger.packages with
  | error failure => rfl
  | ok trials =>
    simp only [Except.map, List.map_map]
    rfl

theorem Follows.map_unit (h : ledger.Follows setup plan) :
    (ledger.outcomes setup.hook).map (·.unit) = plan.units := by
  unfold Plan.units outcomes
  rw [h.typesUnits, h.implementationUnits, List.map_append]
  congr 1
  · cases ledger.types with
    | error failure => rfl
    | ok trials => exact List.map_map
  · cases ledger.packages with
    | error failure => rfl
    | ok trials => exact List.map_map

theorem Follows.hasPackage (h : ledger.Follows setup plan) :
    ∀ trial ∈ ledger.trials, setup.HasPackage trial.package := by
  intro trial htrial
  have hpackages := h.packages
  unfold trials at htrial
  cases hledger : ledger.packages with
  | error failure =>
    rw [hledger] at htrial
    cases htrial
  | ok trials =>
    rw [hledger] at htrial hpackages
    exact hasPackage_of_mem hpackages.symm _ (List.mem_map_of_mem htrial)

theorem name_unit {package : Package} (h : setup.HasPackage package) :
    (Package.unit package).name = package.name := by
  rcases h with rfl | ⟨module, rfl⟩ <;> rfl

theorem packages_outcome {trials : List PackageTrial}
    (h : ∀ trial ∈ trials, setup.HasPackage trial.package) :
    ((trials.map (·.outcome setup.hook)).filter (·.built)).map (·.unit.name) =
      (trials.filter fun trial => (trial.settled setup.hook).isOk).map (·.package.name) := by
  rw [List.filter_map, List.map_map]
  exact List.map_congr_left fun trial htrial => name_unit (h trial (List.mem_filter.1 htrial).1)

theorem records_outcome {trials : List PackageTrial}
    (h : ∀ trial ∈ trials, setup.HasPackage trial.package) :
    (trials.map (·.outcome setup.hook)).flatMap Outcome.records =
      trials.filterMap fun trial =>
        (failure? (trial.settled setup.hook)).map (⟨trial.package.name, ·⟩) := by
  induction trials with
  | nil => rfl
  | cons trial trials ih =>
    obtain ⟨htrial, hrest⟩ := List.forall_mem_cons.1 h
    have hrecords : (trial.outcome setup.hook).records =
        ((failure? (trial.settled setup.hook)).map (⟨trial.package.name, ·⟩)).toList := by
      unfold Outcome.records PackageTrial.outcome
      simp only [name_unit htrial]
      cases failure? (trial.settled setup.hook) <;> rfl
    rw [List.map_cons, List.flatMap_cons, ih hrest, hrecords, List.filterMap_cons]
    cases (failure? (trial.settled setup.hook)).map (FailureRecord.mk trial.package.name) <;> rfl

theorem Follows.stageReport_modules (h : ledger.Follows setup plan) :
    let report := stageReport modulesStage plan.implementationUnits (ledger.outcomes setup.hook)
    report.packages = (ledger.trials.filter fun trial => (trial.settled setup.hook).isOk).map
        (·.package.name) ∧
      report.failures = ledger.packageRecords setup.hook := by
  have hnodup : ((ledger.outcomes setup.hook).map (·.unit)).Nodup := h.map_unit ▸ h.nodup
  have hmem : ∀ outcome ∈ ledger.trials.map (·.outcome setup.hook),
      outcome ∈ ledger.outcomes setup.hook := fun _ => List.mem_append_right _
  have hpackages := h.hasPackage
  rw [h.implementationUnits]
  unfold packageRecords
  unfold trials at hmem hpackages ⊢
  cases hledger : ledger.packages with
  | error failure => exact ⟨rfl, rfl⟩
  | ok trials =>
    rw [hledger] at hmem hpackages
    have hcollect := collect_map_unit hnodup hmem
    rw [List.map_map] at hcollect
    have hstage : stageReport modulesStage ((Except.ok trials).map fun trials : List PackageTrial =>
          trials.map (·.outcome setup.hook |>.unit)) (ledger.outcomes setup.hook) = _ := hcollect
    simp only [hstage]
    exact ⟨packages_outcome hpackages, records_outcome hpackages⟩

theorem Follows.stageReport_types (h : ledger.Follows setup plan) :
    let report := stageReport typesStage plan.typesUnits (ledger.outcomes setup.hook)
    report.packages = [] ∧ report.failures = ledger.typesRecords := by
  have hnodup : ((ledger.outcomes setup.hook).map (·.unit)).Nodup := h.map_unit ▸ h.nodup
  have hmem : ∀ outcome ∈ (ledger.types.toOption.getD []).map (·.outcome),
      outcome ∈ ledger.outcomes setup.hook := fun _ => List.mem_append_left _
  rw [h.typesUnits]
  unfold typesRecords
  cases hledger : ledger.types with
  | error failure => exact ⟨rfl, rfl⟩
  | ok trials =>
    rw [hledger] at hmem
    have hcollect := collect_map_unit hnodup hmem
    rw [List.map_map] at hcollect
    have hstage : stageReport typesStage ((Except.ok trials).map fun trials : List TypesTrial =>
          trials.map (·.outcome.unit)) (ledger.outcomes setup.hook) = _ := hcollect
    simp only [hstage]
    constructor
    · have hnone : (trials.map (·.outcome)).filter (·.built) = [] :=
        List.filter_eq_nil_iff.2 fun outcome houtcome => by
          obtain ⟨trial, -, rfl⟩ := List.mem_map.1 houtcome
          simp [TypesTrial.outcome]
      exact congrArg (List.map (·.unit.name)) hnone
    · exact List.flatMap_map ..

theorem announced_outcomes : (ledger.outcomes setup.hook).flatMap (·.announced) =
    (ledger.trials.filter fun trial => trial.files.isOk).map (·.package) := by
  have hnone : ((ledger.types.toOption.getD []).map (·.outcome)).flatMap (·.announced) = [] :=
    List.flatMap_eq_nil_iff.2 fun outcome houtcome => by
      obtain ⟨trial, -, rfl⟩ := List.mem_map.1 houtcome
      rfl
  unfold outcomes trials
  rw [List.flatMap_append, hnone, List.nil_append, List.flatMap_map]
  induction ledger.packages.toOption.getD [] with
  | nil => rfl
  | cons trial trials ih =>
    rw [List.flatMap_cons, ih, List.filter_cons]
    unfold PackageTrial.outcome
    cases trial.files.isOk <;> rfl

theorem failure?_eq_none {α : Type} {result : Except Failure α} :
    failure? result = none ↔ result.isOk = true := by
  cases result <;> simp [failure?, Except.isOk, Except.toBool]

theorem records_eq_nil_iff {hook : MetadataHook} :
    ledger.packageRecords hook ++ ledger.typesRecords = [] ↔ ledger.Clean hook := by
  have hpackages : ledger.packageRecords hook = [] ↔ ∃ trials, ledger.packages = .ok trials ∧
      ∀ trial ∈ trials, (trial.settled hook).isOk = true := by
    unfold packageRecords
    cases ledger.packages with
    | error failure => simp
    | ok trials => simp [failure?_eq_none]
  have htypes : ledger.typesRecords = [] ↔ ∃ trials, ledger.types = .ok trials ∧
      ∀ trial ∈ trials, trial.issues = [] ∧ ∀ scope ∈ trial.scopes, scope.2.isOk = true := by
    unfold typesRecords
    cases ledger.types with
    | error failure => simp
    | ok trials => simp [TypesTrial.records, TypesTrial.failures, failure?_eq_none]
  rw [List.append_eq_nil_iff, hpackages, htypes]
  exact ⟨fun h => ⟨h.2, h.1⟩, fun h => ⟨h.packages, h.types⟩⟩

/-- A plan's report accounts for a ledger that follows the plan. -/
theorem Follows.accounts (h : ledger.Follows setup plan) : ledger.Accounts setup.hook
    ⟨plan.report (ledger.outcomes setup.hook),
      (ledger.outcomes setup.hook).flatMap (·.announced)⟩ := by
  obtain ⟨hmodules, hpackageRecords⟩ := h.stageReport_modules
  obtain ⟨hnone, htypesRecords⟩ := h.stageReport_types
  have hordered := @pairwise_sortFailures
    ((stageReport modulesStage plan.implementationUnits (ledger.outcomes setup.hook)).append
      (stageReport typesStage plan.typesUnits (ledger.outcomes setup.hook)))
  refine ⟨?_, announced_outcomes, hordered, fun module => ?_, ?_, fun module => ?_, ?_⟩
  · unfold Plan.report Report.append Report.sortFailures
    simp only
    rw [hmodules, hnone, List.append_nil]
  · unfold Plan.report
    simp only
    rw [filter_sortFailures]
    unfold Report.append
    simp only
    rw [hpackageRecords, htypesRecords, List.filter_append]
  · exact pairwise_dropRepeats (List.Pairwise.map _ (fun _ _ hle => hle) hordered)
  · exact mem_dropRepeats.trans List.mem_map
  · rw [← records_eq_nil_iff, ← hpackageRecords, ← htypesRecords]
    exact List.isEmpty_iff.trans stableSort_eq_nil

end Report

end Ledger

namespace Workplace

theorem packages_ledger {w : Workplace} {start after : Session} {ledger : Ledger}
    (hmake : w.setup.makeOutputRoot.run.run start.disk = (.ok (), w.ready))
    (hmemory : start.memory.Named) (hextension : '/' ∉ w.setup.settings.extension.toList)
    (hledger : w.setup.ledger.run.run start = (.ok ledger, after)) :
    ledger.packages.map (fun trials => trials.map (·.package)) =
      (w.setup.allPackages.run.run w.ready).1 := by
  obtain ⟨types, session, hrun, hready, hplanned⟩ := w.exists_run_planTypes hmemory
  rw [Ledger.run_ledger hmake, hrun] at hledger
  have hunderway : w.Underway
      ((w.setup.runUnits types (planned (types.map (·.units)))).run w.ready).2 :=
    w.underway_ready.runTypesUnits hextension (fun plan hplan => (hplanned plan hplan).1)
      fun _ => id
  rw [Ledger.run_typesUnits] at hunderway
  simp only [hready] at hledger
  obtain rfl := Except.ok.inj (Prod.mk.inj hledger).1
  rw [Ledger.map_package_tryStage, Setup.run_allPackages, Setup.run_allPackages]
  simp only [run_moduleNames, hunderway.list_root]

end Workplace

/-- The report of a build accounts for what the ledger of the build says. The packages of the ledger
are the core package and those of the modules, in the order of their names. Between roots that lie
apart they are the packages that are listed before the build. -/
theorem build_accounts {setup : Setup} {start after : Session} {result : Result}
    (hbuild : setup.build.run.run start = (.ok result, after)) :
    ∃ ledger, setup.ledger.run.run start = (.ok ledger, after) ∧
      ledger.Accounts setup.hook result ∧
      (∀ trials, ledger.packages = .ok trials → ∃ modules : List String,
        modules.Pairwise (· < ·) ∧ trials.map (·.package) =
          .core setup.settings.packages :: modules.map (.module setup.settings.packages)) ∧
      ∀ w : Workplace, w.setup = setup → start.memory.Named →
        '/' ∉ setup.settings.extension.toList →
        setup.makeOutputRoot.run.run start.disk = (.ok (), w.ready) →
        ledger.packages.map (fun trials => trials.map (·.package)) =
          (setup.allPackages.run.run w.ready).1 := by
  obtain ⟨ledger, plan, hledger, hfollows, rfl⟩ := Ledger.exists_of_build hbuild
  refine ⟨ledger, hledger, hfollows.accounts, fun trials htrials => ?_, ?_⟩
  · have hpackages := hfollows.packages
    rw [htrials] at hpackages
    cases hmodules : plan.modules with
    | error failure =>
      rw [hmodules] at hpackages
      cases hpackages
    | ok modules =>
      rw [hmodules] at hpackages
      exact ⟨modules, hfollows.ascending modules hmodules, Except.ok.inj hpackages⟩
  · rintro w rfl hmemory hextension hmake
    exact Workplace.packages_ledger hmake hmemory hextension hledger

namespace Workplace

/-- Where names are kept apart, the report of a build accounts for the ledger in whatever order the
units are taken, and the packages that the ledger has files of are announced in some order. -/
theorem Plain.buildBy_accounts {w : Workplace} {d : Disk}
    {stages : StateM Session (Plan × List Outcome)} (plain : w.Plain (w.plan {}).types)
    (hcore : ¬ w.Discovered coreName) (hextension : '/' ∉ w.setup.settings.extension.toList)
    (hlinks : w.Unlinked) (horders : w.setup.Orders stages)
    (hmake : w.setup.makeOutputRoot.run.run d = (.ok (), w.ready)) :
    ∃ ledger ready result after, w.setup.ledger.run.run { disk := d } = (.ok ledger, ready) ∧
      (w.setup.buildBy stages).run.run { disk := d } = (.ok result, after) ∧
      ready.disk.tree = after.disk.tree ∧
      ∃ announced, result.announced.Perm announced ∧
        ledger.Accounts w.setup.hook { result with announced } := by
  obtain ⟨planned, ready, result, after, hplanned, hbuild, hreport, hannounced, htree⟩ :=
    plain.buildBy_congr hcore hextension hlinks w.setup.orders_runStages horders hmake
  obtain ⟨ledger, plan, hledger, hfollows, rfl⟩ := Ledger.exists_of_build hplanned
  refine ⟨ledger, ready, result, after, hledger, hbuild, htree, _, hannounced.symm, ?_⟩
  rw [← hreport]
  exact hfollows.accounts

end Workplace

section Refused

def refusingSetup : Setup := ⟨webSettings, fun package =>
  if package.name = "web" then .error (.metadata "web" "refused") else .ok ()⟩

/-- The files of `web` are written and announced, but its package counts as a failure. -/
theorem build_accounts_refused : ∃ result after ledger,
    refusingSetup.build.run.run { disk := diskOf webFiles } = (.ok result, after) ∧
    refusingSetup.ledger.run.run { disk := diskOf webFiles } = (.ok ledger, after) ∧
    ledger.Accounts refusingSetup.hook result ∧
    result.report.packages = ["core"] ∧ result.announced.map (·.name) = ["core", "web"] := by
  have hmake : refusingSetup.makeOutputRoot.run.run (diskOf webFiles) =
      (.ok (), webPlace.ready) := make_webPlace
  have hbuild := @Setup.run_build refusingSetup { disk := diskOf webFiles } _ hmake
  obtain ⟨ledger, hledger, haccounts, -⟩ := build_accounts hbuild
  refine ⟨_, _, ledger, hbuild, hledger, haccounts, ?_⟩
  decide +kernel

end Refused

end Unbundle.Build
