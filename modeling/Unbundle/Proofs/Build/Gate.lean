import Mathlib.Algebra.GroupWithZero.Nat
import Unbundle.Proofs.Build.Accounts
import Unbundle.Proofs.Build.Approach
import Unbundle.Proofs.Build.EnumTargets

/-! Issues keep a module's types from being written, and nothing else does. Where a stream has an
issue with a module the types pass stays out of the module's directory, and it tries each scope of
all other modules that have types. What it writes is for these scopes. -/

namespace Unbundle.Build
open Unbundle.Files Unbundle.Types Unbundle.Declaration

/-- All failures that the work may come to are about paths. -/
def IoOnly {α : Type} (work : Work α) : Prop :=
  ∀ d failure, (work.run.run d).1 = .error failure → ∃ path fault, failure = .io path fault

section IoOnly
variable {α β : Type} {work : Work α} {path : Files.Path} {setup : Setup} {types : ScopeTypes}
  {extension module : String} {streams : Streams} {version : Option String}

theorem IoOnly.at {operation : DiskM Fault α} : IoOnly (Work.at path operation) := by
  intro d failure h
  unfold Work.at at h
  rw [run_adapt] at h
  cases hresult : (operation.run.run d).1 with
  | ok a => simp [hresult, Except.mapError] at h
  | error fault =>
    simp only [hresult, Except.mapError] at h
    cases h
    exact ⟨path, fault, rfl⟩

theorem IoOnly.pure {a : α} : IoOnly (pure a : Work α) := fun _ _ h => nomatch h

theorem IoOnly.bind {next : α → Work β} (h : IoOnly work) (hnext : ∀ a, IoOnly (next a)) :
    IoOnly (work >>= next) := by
  intro d failure hrun
  rw [run_bind] at hrun
  cases hwork : work.run.run d with
  | mk result d' =>
    rw [hwork] at hrun
    cases result with
    | error other =>
      cases hrun
      exact h d failure (by rw [hwork])
    | ok a => exact hnext a d' failure hrun

theorem IoOnly.foldlM {list : List β} {body : α → β → Work α} (h : ∀ a x, IoOnly (body a x))
    {a : α} : IoOnly (list.foldlM body a) := by
  induction list generalizing a with
  | nil => exact .pure
  | cons x list ih => exact .bind (h a x) fun a => ih

theorem IoOnly.forM {list : List β} {body : β → Work PUnit} (h : ∀ x, IoOnly (body x)) :
    IoOnly (list.forM body) := by
  induction list with
  | nil => exact .pure
  | cons x list ih => exact .bind (h x) fun _ => ih

theorem IoOnly.write {scope : Files.Path} : IoOnly (types.write scope extension) := by
  have hslice : ∀ direction,
      IoOnly (types.writeSlice (typesDirectory scope) extension direction) := by
    intro direction
    unfold ScopeTypes.writeSlice
    split
    · exact .at
    · exact .pure
  have henums : IoOnly (types.writeEnums (typesDirectory scope) extension) := by
    unfold ScopeTypes.writeEnums
    split
    · exact .bind .at fun _ => .bind (.forM fun _ => .at) fun _ => .at
    · split
      · exact .at
      · exact .pure
  exact .bind .at fun _ => .bind henums fun _ => .bind (hslice .inputs) fun _ =>
    .bind (hslice .outputs) fun _ => .bind .at fun _ => .pure

theorem IoOnly.versionEnums? {sdk : SdkLayout} {version : String} :
    IoOnly (versionEnums? sdk module version) := .bind .at fun _ => .pure

theorem IoOnly.allVersionEnums {sdk : SdkLayout} : IoOnly (allVersionEnums sdk module) := by
  refine .bind .at fun entries => .foldlM fun texts version => .bind .versionEnums? fun text => ?_
  cases text with
  | some text => exact .pure
  | none => exact .pure

theorem IoOnly.writeScopeTypes : IoOnly (setup.writeScopeTypes streams module version) := by
  cases version with
  | some version => exact .bind .versionEnums? fun _ => .write
  | none =>
    refine .bind .at fun enums => ?_
    simp only
    split
    · exact .bind .pure fun _ => .write
    · exact .bind .allVersionEnums fun _ => .write

end IoOnly

namespace Workplace

/-- The deeds of the types of some modules, without those that there are issues with. -/
def Gated (w : Workplace) (streams : Streams) (modules : List String) (deed : Deed) : Prop :=
  ∃ module ∈ modules, streams.issuesOf module = [] ∧ w.IsTypes streams module deed

def Tried (streams : Streams) (modules : List String) (module : String)
    (version : Option String) : Prop :=
  module ∈ modules ∧ streams.issuesOf module = [] ∧ version ∈ streams.scopesOf module

/-- Where the marks of tried scopes can be. -/
inductive TriedAt (w : Workplace) (streams : Streams) (modules names : List String) : Prop where
  | dir {module version} (tried : Tried streams modules module version) (nonempty : names ≠ [])
      (within : names <+: scopeDir module version ++ [typesName, enumsName])
  | file {module version} (tried : Tried streams modules module version)
      (within : TypesFile w.setup.settings.extension (scopeDir module version) names)

section Gated
variable {w : Workplace} {streams : Streams} {modules names : List String} {module : String}
  {version : Option String} {d : Disk} {plan : TypesPlan} {loc : Location}

theorem Serial.runTypes_gated (hextension : '/' ∉ w.setup.settings.extension.toList)
    (hstreams : streams.Named) (hmodule : IsName module) :
    w.Serial (w.Gated streams [module]) (w.setup.runTypes streams module) := by
  by_cases hissues : streams.issuesOf module = []
  · exact (Serial.runTypes hextension hstreams hmodule).mono fun deed hdeed =>
      ⟨module, List.mem_singleton_self _, hissues, hdeed⟩
  · unfold Setup.runTypes
    simp only [List.isEmpty_iff, hissues, if_false]
    exact .pure

theorem Gated.mono {more : List String} {deed : Deed} (h : w.Gated streams modules deed)
    (hmore : ∀ module ∈ modules, module ∈ more) : w.Gated streams more deed := by
  obtain ⟨module, hmodule, hrest⟩ := h
  exact ⟨module, hmore module hmodule, hrest⟩

theorem marks_runUnits (hextension : '/' ∉ w.setup.settings.extension.toList)
    (hstreams : plan.streams.Named) (hmodules : ∀ module ∈ modules, IsName module)
    (hd : w.Underway d) : (Footprint.ofKind (w.Gated plan.streams modules)).Marks w.output d d
      ((w.setup.runUnits (.ok plan) (modules.map .types)).run d).2
      ((w.setup.runUnits (.ok plan) (modules.map .types)).run d).2 := by
  induction modules generalizing d with
  | nil => exact .refl _ _ _ _
  | cons module modules ih =>
    obtain ⟨hmodule, hrest⟩ := List.forall_mem_cons.1 hmodules
    have hfirst : w.Concurs (w.Gated plan.streams (module :: modules))
        (w.setup.runUnit (.ok plan) (.types module)) :=
      ((Serial.runTypes_gated hextension hstreams hmodule).mono fun deed hdeed =>
        hdeed.mono (by simp)).concurs
    rw [List.map_cons, run_runUnits_cons]
    refine (hfirst.marks hd).trans ((ih hrest (hfirst.underway hd)).mono ?_ ?_)
    · rintro names ⟨hne, full, hdeed, hstarts⟩
      exact ⟨hne, full, hdeed.mono fun _ => List.mem_cons_of_mem _, hstarts⟩
    · rintro names ⟨blame, dir, name, content, hdeed, heq⟩
      exact ⟨blame, dir, name, content, hdeed.mono fun _ => List.mem_cons_of_mem _, heq⟩

theorem triedAt_of_dirs (h : (Footprint.ofKind (w.Gated streams modules)).dirs names) :
    w.TriedAt streams modules names := by
  obtain ⟨hne, full, ⟨module, hmodule, hissues, version, hversion, hdeed⟩, hstarts⟩ := h
  refine .dir ⟨hmodule, hissues, hversion⟩ hne (hstarts.trans ?_)
  cases hdeed with
  | directory => exact (List.prefix_append_right_inj _).2 (by decide)
  | enums => simp

theorem triedAt_of_files (h : (Footprint.ofKind (w.Gated streams modules)).files names) :
    w.TriedAt streams modules names := by
  obtain ⟨blame, dir, name, content, ⟨module, hmodule, hissues, version, hversion, hdeed⟩, rfl⟩ := h
  exact .file ⟨hmodule, hissues, hversion⟩ (typesFile_of_isDeed hdeed)

theorem TriedAt.head (h : w.TriedAt streams modules names) :
    ∃ module, names.head? = some module ∧ streams.issuesOf module = [] := by
  cases h with
  | @dir module version tried nonempty within =>
    obtain ⟨name, more, rfl⟩ := List.exists_cons_of_ne_nil nonempty
    refine ⟨module, ?_, tried.2.1⟩
    cases version <;> simp_all [scopeDir, List.cons_prefix_cons]
  | @file module version tried within =>
    refine ⟨module, ?_, tried.2.1⟩
    cases version <;> cases within <;> rfl

theorem fileName_ne_typesName {stem extension : String} : fileName stem extension ≠ typesName :=
  fun heq => absurd (heq ▸ dot_mem_fileName stem extension) (by decide)

/-- Scopes with one directory of types in common have one module, and the first scope is the
module's own unless they are the same. -/
theorem scope_of_prefix {other : String} {version' : Option String} {rest : List String}
    (hrest : ∀ name ∈ rest.head?, name ≠ typesName)
    (h : scopeDir module version ++ [typesName] <+: scopeDir other version' ++ typesName :: rest) :
    module = other ∧ (version = none ∨ version = version') := by
  cases version with
  | none => cases version' <;> exact ⟨(List.cons_prefix_cons.1 h).1, .inl rfl⟩
  | some version =>
    cases version' with
    | none =>
      -- the directory would have to be called like something in it
      simp only [scopeDir, List.cons_append, List.nil_append, List.cons_prefix_cons] at h
      obtain ⟨-, -, h⟩ := h
      cases rest with
      | nil => cases List.prefix_nil.1 h
      | cons name rest => exact absurd (List.cons_prefix_cons.1 h).1.symm (hrest name rfl)
    | some version' =>
      simp only [scopeDir, List.cons_append, List.nil_append, List.cons_prefix_cons] at h
      exact ⟨h.1, .inr (congrArg some h.2.1)⟩

theorem Tried.of_prefix {other : String} {version' : Option String} {rest : List String}
    (h : Tried streams modules other version') (hrest : ∀ name ∈ rest.head?, name ≠ typesName)
    (hstarts : scopeDir module version ++ [typesName] <+:
      scopeDir other version' ++ typesName :: rest) : Tried streams modules module version := by
  obtain ⟨rfl, rfl | rfl⟩ := scope_of_prefix hrest hstarts
  · exact ⟨h.1, h.2.1, List.mem_cons_self⟩
  · exact h

theorem TriedAt.tried (h : w.TriedAt streams modules names)
    (hscope : scopeDir module version ++ [typesName] <+: names) :
    Tried streams modules module version := by
  have hne : ∀ {rest : List String}, ∀ name ∈ (enumsName :: rest).head?, name ≠ typesName := by
    simp [enumsName, typesName]
  cases h with
  | dir tried nonempty within => exact tried.of_prefix hne (hscope.trans within)
  | file tried within =>
    cases within with
    | own =>
      rw [List.append_assoc] at hscope
      exact tried.of_prefix (by simp [fileName_ne_typesName]) hscope
    | enums =>
      rw [List.append_assoc, List.append_assoc] at hscope
      exact tried.of_prefix hne hscope

theorem find?_runUnits (hextension : '/' ∉ w.setup.settings.extension.toList)
    (hplan : plan.Named) (hloc : ∀ names, loc = names.reverse ++ w.output →
      ¬ w.TriedAt plan.streams plan.modules names) :
    ((w.setup.runUnits (.ok plan) plan.units).run w.ready).2.tree.find? loc =
      w.ready.tree.find? loc := by
  have hmarks : (Footprint.ofKind (w.Gated plan.streams plan.modules)).Marks w.output w.ready
      w.ready ((w.setup.runUnits (.ok plan) plan.units).run w.ready).2
      ((w.setup.runUnits (.ok plan) plan.units).run w.ready).2 :=
    marks_runUnits hextension hplan.streams hplan.modules w.underway_ready
  cases hmarks.marked loc with
  | same first => exact first
  | dir heq within => exact absurd (triedAt_of_dirs within) (hloc _ heq)
  | file heq within => exact absurd (triedAt_of_files within) (hloc _ heq)

theorem suffix_output {scope : List String} (h : scope.reverse ++ w.output <:+ loc)
    (heq : loc = names.reverse ++ w.output) : scope <+: names :=
  reverse_append_suffix.1 (heq ▸ h)

theorem find?_of_issues (hextension : '/' ∉ w.setup.settings.extension.toList)
    (hplan : plan.Named) (hissues : plan.streams.issuesOf module ≠ [])
    (hloc : module :: w.output <:+ loc) :
    ((w.setup.runUnits (.ok plan) plan.units).run w.ready).2.tree.find? loc =
      w.ready.tree.find? loc := by
  refine find?_runUnits hextension hplan fun names heq htried => ?_
  have hprefix : [module] <+: names := suffix_output hloc heq
  obtain ⟨more, rfl⟩ := hprefix
  obtain ⟨other, hother, hnone⟩ := htried.head
  obtain rfl : module = other := by simpa using hother
  exact hissues hnone

theorem find?_of_not_tried (hextension : '/' ∉ w.setup.settings.extension.toList)
    (hplan : plan.Named) (htried : ¬ Tried plan.streams plan.modules module version)
    (hloc : w.typesDir module version <:+ loc) :
    ((w.setup.runUnits (.ok plan) plan.units).run w.ready).2.tree.find? loc =
      w.ready.tree.find? loc := by
  refine find?_runUnits hextension hplan fun names heq h => htried (h.tried ?_)
  refine suffix_output ?_ heq
  simpa [typesDir, packageDir] using hloc

end Gated

end Workplace

/-- The issue that a record is about. -/
def FailureRecord.issue? (record : FailureRecord) : Option Issue :=
  match record.failure with
  | .structural issue => some issue
  | _ => none

section Trials
variable {setup : Setup} {streams : Streams} {plan : TypesPlan} {trials : List TypesTrial}
  {trial : TypesTrial} {module : String} {d after : Disk} {start : Session} {result : Result}

theorem map_run_tryTypes {modules : List String} :
    ((modules.mapM (setup.tryTypes streams)).run d).1.map
        (fun trial => (trial.module, trial.issues, trial.scopes.map (·.1))) =
      modules.map fun module => (module, streams.issuesOf module,
        if (streams.issuesOf module).isEmpty then streams.scopesOf module else []) := by
  refine Setup.map_run_mapM fun module _ d => ?_
  have hscopes : ∀ versions : List (Option String),
      ((versions.mapM (setup.tryScope streams module)).run d).1.map (·.1) = versions := by
    intro versions
    exact (Setup.map_run_mapM fun version _ d => rfl).trans (List.map_id versions)
  exact congrArg (fun scopes => (module, streams.issuesOf module, scopes)) (hscopes _)

theorem filterMap_issue? (hio : ∀ failure ∈ trial.scopes.filterMap (failure? ·.2),
      ∃ path fault, failure = .io path fault) :
    trial.records.filterMap FailureRecord.issue? = trial.issues := by
  have hscopes : ((trial.scopes.filterMap (failure? ·.2)).map
      (FailureRecord.mk trial.module)).filterMap FailureRecord.issue? = [] := by
    refine List.filterMap_eq_nil_iff.2 fun record hrecord => ?_
    obtain ⟨failure, hfailure, rfl⟩ := List.mem_map.1 hrecord
    obtain ⟨path, fault, rfl⟩ := hio failure hfailure
    rfl
  unfold TypesTrial.records TypesTrial.failures
  rw [List.map_append, List.filterMap_append, hscopes, List.append_nil, List.map_map,
    List.filterMap_map]
  exact List.filterMap_some

theorem issue?_of_tryTypes {modules : List String}
    (h : trial ∈ ((modules.mapM (setup.tryTypes streams)).run d).1) :
    trial.records.filterMap FailureRecord.issue? = trial.issues := by
  obtain ⟨module, -, d', rfl⟩ := Setup.exists_of_mem_run_mapM h
  refine filterMap_issue? fun failure hfailure => ?_
  obtain ⟨scope, hscope, hfailed⟩ := List.mem_filterMap.1 hfailure
  obtain ⟨version, -, d'', rfl⟩ := Setup.exists_of_mem_run_mapM hscope
  refine @IoOnly.writeScopeTypes setup module streams version d'' failure ?_
  have hresult : failure? ((setup.writeScopeTypes streams module version).run.run d'').1 =
      some failure := hfailed
  cases hrun : ((setup.writeScopeTypes streams module version).run.run d'').1 with
  | ok summary => simp [hrun, failure?] at hresult
  | error other => simpa [hrun, failure?] using hresult

theorem run_createTypes {ready : Disk} {session : Session}
    (hmake : setup.makeOutputRoot.run.run start.disk = (.ok (), ready))
    (hplan : setup.planTypes.run.run ⟨start.memory, ready⟩ = (.ok plan, session)) :
    setup.createTypes.run.run start =
      (let trials := (plan.modules.mapM (setup.tryTypes plan.streams)).run session.disk
      let outcomes := trials.1.map (·.outcome)
      (.ok ⟨(collect plan.units outcomes).sortFailures, outcomes.flatMap (·.announced)⟩,
        { session with disk := trials.2 })) := by
  have hunits : (setup.runUnits (.ok plan) plan.units).run session.disk =
      (((plan.modules.mapM (setup.tryTypes plan.streams)).run session.disk).1.map (·.outcome),
        ((plan.modules.mapM (setup.tryTypes plan.streams)).run session.disk).2) :=
    Setup.run_runUnits_map fun module _ d => Setup.run_runTypes
  unfold Setup.createTypes
  rw [run_bind, run_ofWork, hmake]
  simp only
  rw [run_bind, hplan]
  simp only
  rw [run_bind, run_lift]
  have hdisk : (SessionM.onDisk (setup.runUnits (.ok plan) plan.units)).run session =
      (((setup.runUnits (.ok plan) plan.units).run session.disk).1,
        { session with disk := ((setup.runUnits (.ok plan) plan.units).run session.disk).2 }) := rfl
  rw [hdisk, hunits]
  rfl

theorem filter_records : (trials.flatMap TypesTrial.records).filter (·.module = module) =
    (trials.filter (·.module = module)).flatMap TypesTrial.records := by
  have hown : ∀ trial : TypesTrial, trial.records.filter (·.module = module) =
      if trial.module = module then trial.records else [] := by
    intro trial
    unfold TypesTrial.records
    rw [List.filter_map]
    split
    · next heq => simp [Function.comp_def, heq]
    · next hne => simp [Function.comp_def, hne]
  induction trials with
  | nil => rfl
  | cons trial trials ih =>
    rw [List.flatMap_cons, List.filter_append, ih, hown, List.filter_cons]
    by_cases heq : trial.module = module
    · simp [heq]
    · simp [heq]

theorem flatMap_issues (hissues : ∀ trial ∈ trials, trial.issues = streams.issuesOf trial.module)
    (hnodup : (trials.map (·.module)).Nodup) :
    (trials.filter (·.module = module)).flatMap (·.issues) =
      if module ∈ trials.map (·.module) then streams.issuesOf module else [] := by
  induction trials with
  | nil => rfl
  | cons trial trials ih =>
    obtain ⟨htrial, hrest⟩ := List.forall_mem_cons.1 hissues
    rw [List.map_cons, List.nodup_cons] at hnodup
    have hmore := ih hrest hnodup.2
    rw [List.filter_cons]
    by_cases heq : trial.module = module
    · subst heq
      rw [if_neg hnodup.1] at hmore
      simp [hmore, htrial]
    · simp [heq, Ne.symm heq, hmore]

theorem collect_trials (hmodules : trials.map (·.module) = plan.modules)
    (hnodup : plan.modules.Nodup) :
    (collect plan.units (trials.map (·.outcome))).typesWritten =
        (trials.map fun trial => trial.scopes.countP (·.2.isOk)).sum ∧
      (collect plan.units (trials.map (·.outcome))).failures =
        trials.flatMap TypesTrial.records := by
  have hunits : (trials.map (·.outcome)).map (·.unit) = plan.units := by
    unfold TypesPlan.units
    rw [← hmodules, List.map_map, List.map_map]
    rfl
  have hdistinct : plan.units.Nodup := List.Nodup.map (fun _ _ heq => by injection heq) hnodup
  have hcollect := @collect_map_unit _ (trials.map (·.outcome)) (hunits ▸ hdistinct) fun _ h => h
  rw [hunits] at hcollect
  rw [hcollect]
  refine ⟨?_, List.flatMap_map ..⟩
  simp only [List.foldl_map, List.sum_eq_foldl]
  rfl

end Trials

namespace Workplace

/-- What the types pass did, by its trials. It covers each module that a stream has, or has an issue
with, and each that has a directory of enums. Those without issues are tried, with a scope for each
version that a stream has. The others show in the report by their issues, those of the first stream
before those of the second, and nothing is touched but for the scopes that are tried. -/
structure TypesPass (w : Workplace) (plan : TypesPlan) (trials : List TypesTrial)
    (report : Report) (after : Disk) : Prop where
  covers : ∀ module, module ∈ plan.modules ↔ w.HasTypes plan.streams module
  distinct : plan.modules.Nodup
  tries : trials.map (fun trial => (trial.module, trial.issues, trial.scopes.map (·.1))) =
    plan.modules.map fun module => (module, plan.streams.issuesOf module,
      if (plan.streams.issuesOf module).isEmpty then plan.streams.scopesOf module else [])
  written : report.typesWritten = (trials.map fun trial => trial.scopes.countP (·.2.isOk)).sum
  failures : ∀ module, report.failures.filter (·.module = module) =
    (trials.filter (·.module = module)).flatMap TypesTrial.records
  issues : ∀ module, (report.failures.filter (·.module = module)).filterMap FailureRecord.issue? =
    plan.streams.inputs.issuesOf module ++ plan.streams.outputs.issuesOf module
  gated : ∀ module, plan.streams.issuesOf module ≠ [] → ∀ loc, module :: w.output <:+ loc →
    after.tree.find? loc = w.ready.tree.find? loc
  untouched : ∀ module version, ¬ Tried plan.streams plan.modules module version →
    ∀ loc, w.typesDir module version <:+ loc → after.tree.find? loc = w.ready.tree.find? loc

section Pass
variable {w : Workplace} {start after : Session} {result : Result} {plan : TypesPlan}
  {module : String}

theorem issuesOf_of_not_mem (hdrawn : plan.Drawn w.setup w.ready) (h : module ∉ plan.modules) :
    plan.streams.issuesOf module = [] := by
  have hnone : ∀ stream : Stream, ¬ mentions stream module → stream.issuesOf module = [] := by
    intro stream hstream
    unfold Stream.issuesOf
    refine List.filter_eq_nil_iff.2 fun issue hissue heq => hstream (.inr ⟨issue, hissue, ?_⟩)
    simpa using heq
  rw [mem_modules_iff hdrawn] at h
  unfold HasTypes at h
  rw [not_or, not_or] at h
  unfold Streams.issuesOf
  rw [hnone _ h.1.1, hnone _ h.1.2]
  rfl

/-- Trials of the planned modules are what the types pass did. -/
theorem typesPass (hextension : '/' ∉ w.setup.settings.extension.toList) (hplan : plan.Named)
    (hdrawn : plan.Drawn w.setup w.ready) (hnodup : plan.modules.Nodup) :
    let trials := (plan.modules.mapM (w.setup.tryTypes plan.streams)).run w.ready
    w.TypesPass plan trials.1
      (collect plan.units (trials.1.map (·.outcome))).sortFailures trials.2 := by
  intro trials
  have hunits : (w.setup.runUnits (.ok plan) plan.units).run w.ready =
      (trials.1.map (·.outcome), trials.2) :=
    Setup.run_runUnits_map fun module _ d => Setup.run_runTypes
  have hdisk : trials.2 = ((w.setup.runUnits (.ok plan) plan.units).run w.ready).2 := by
    rw [hunits]
  have htries : trials.1.map (fun trial => (trial.module, trial.issues, trial.scopes.map (·.1))) =
      plan.modules.map _ := map_run_tryTypes
  have hmodules : trials.1.map (·.module) = plan.modules := by
    simpa [Function.comp_def] using congrArg (List.map (·.1)) htries
  have hissues : ∀ trial ∈ trials.1, trial.issues = plan.streams.issuesOf trial.module := by
    intro trial htrial
    obtain ⟨module, -, d', rfl⟩ := Setup.exists_of_mem_run_mapM htrial
    rfl
  obtain ⟨hwritten, hrecords⟩ := collect_trials hmodules hnodup
  have hfailures : ∀ module, (collect plan.units
      (trials.1.map (·.outcome))).sortFailures.failures.filter (·.module = module) =
        (trials.1.filter (·.module = module)).flatMap TypesTrial.records := by
    intro module
    rw [filter_sortFailures, hrecords, filter_records]
  refine ⟨fun module => mem_modules_iff hdrawn, hnodup, htries, hwritten, hfailures,
    fun module => ?_, fun module hmodule loc hloc => ?_,
    fun module version htried loc hloc => ?_⟩
  · rw [hfailures, List.filterMap_flatMap]
    have hown : (trials.1.filter (·.module = module)).flatMap
        (fun trial => trial.records.filterMap FailureRecord.issue?) =
          (trials.1.filter (·.module = module)).flatMap (·.issues) :=
      List.flatMap_congr fun trial htrial => issue?_of_tryTypes (List.mem_filter.1 htrial).1
    rw [hown, flatMap_issues hissues (hmodules ▸ hnodup), hmodules]
    split
    · rfl
    · next hmodule => exact (issuesOf_of_not_mem hdrawn hmodule).symm
  · rw [hdisk]
    exact find?_of_issues hextension hplan hmodule hloc
  · rw [hdisk]
    exact find?_of_not_tried hextension hplan htried hloc

theorem exists_plan_of_createTypes {setup : Setup} {ready : Disk}
    (hmake : setup.makeOutputRoot.run.run start.disk = (.ok (), ready))
    (hrun : setup.createTypes.run.run start = (.ok result, after)) :
    ∃ plan session, setup.planTypes.run.run ⟨start.memory, ready⟩ = (.ok plan, session) := by
  unfold Setup.createTypes at hrun
  rw [run_bind, run_ofWork, hmake] at hrun
  simp only at hrun
  rw [run_bind] at hrun
  cases hplan : setup.planTypes.run.run ⟨start.memory, ready⟩ with
  | mk types session =>
    cases types with
    | ok plan => exact ⟨plan, session, rfl⟩
    | error failure =>
      rw [hplan] at hrun
      cases hrun

end Pass

/-- The types alone: once the output root is ready, issues keep exactly the types of their own
module from being written, all other scopes are tried, and each of these counts once, as written or
as a failure. Where the path of the root leads on through plain names, making it keeps what lies
below it, unless it is to be emptied. -/
theorem createTypes_gated {w : Workplace} {start after : Session} {result : Result}
    (hextension : '/' ∉ w.setup.settings.extension.toList) (hmemory : start.memory.Named)
    (hmake : w.setup.makeOutputRoot.run.run start.disk = (.ok (), w.ready))
    (hrun : w.setup.createTypes.run.run start = (.ok result, after)) :
    ∃ plan trials, (w.setup.planTypes.run.run ⟨start.memory, w.ready⟩).1 = .ok plan ∧
      (plan.modules.mapM (w.setup.tryTypes plan.streams)).run w.ready = (trials, after.disk) ∧
      w.TypesPass plan trials result.report after.disk ∧
      ∀ base names name,
        w.setup.Approach start.disk.home base names name start.disk.tree →
        ∀ loc, Beneath w.output loc → w.ready.tree.find? loc =
          if w.setup.settings.clean then none else start.disk.tree.find? loc := by
  obtain ⟨plan, session, hplan⟩ := exists_plan_of_createTypes hmake hrun
  obtain ⟨types, session', htypes, hready, hplanned⟩ := w.exists_run_planTypes hmemory
  obtain ⟨rfl, rfl⟩ := Prod.mk.inj (htypes.symm.trans hplan)
  obtain ⟨hnamed, hdrawn⟩ := hplanned plan rfl
  rw [run_createTypes hmake hplan, hready] at hrun
  obtain ⟨hresult, rfl⟩ := Prod.mk.inj hrun
  obtain rfl := Except.ok.inj hresult
  refine ⟨plan, _, congrArg Prod.fst hplan, rfl,
    typesPass hextension hnamed hdrawn (nodup_modules_of_planTypes hplan), ?_⟩
  intro base names name happroach loc hloc
  have hroot := happroach.entry_of_ok hmake
  rw [w.leadsOutput] at hroot
  rw [(Prod.mk.inj (Except.ok.inj hroot)).1] at hloc
  exact happroach.find?_below_of_ok hmake hloc

section Damaged

def damagedFiles : List (Location × String) :=
  [(["input.ts", "types", "sdk"], "export namespace net \x7b\n    export namespace v1 \x7b\n" ++
      "    \x7d\n\x7d\nexport namespace web \x7b\n"),
    (["output.ts", "types", "sdk"], ""),
    (["index.ts", "net", "enums", "types", "sdk"], "export const Kind = 1;\n")]

def damagedPlace : Workplace where
  setup := setupOf webSettings
  ready := readyOf webSettings (diskOf damagedFiles)
  source := ["sdk"]
  output := ["packages"]
  leadsSource := by decide +kernel
  leadsOutput := by decide +kernel
  sourceApart := webPlace.sourceApart
  outputApart := webPlace.outputApart
  noLink := by
    intro loc _ target hlink
    have hall := @entry_of_all (readyOf webSettings (diskOf damagedFiles)).tree
      (fun _ entry => !isLink entry) (by decide +kernel) loc _ hlink
    cases hall

theorem approach_damagedFiles : damagedPlace.setup.Approach [] [] [] "packages"
    (diskOf damagedFiles).tree where
  leads := ⟨fun ground hground => List.mem_singleton.1 hground ▸ FileTree.root _, [], by decide,
    fun _ _ => ⟨_, .stop⟩⟩
  plain := ⟨noLink_of_all (by decide +kernel) _, trivial⟩

/-- The types of `net` are written for both of its scopes, and `web` is reported. -/
theorem createTypes_gated_damaged : ∃ result after plan trials,
    '/' ∉ damagedPlace.setup.settings.extension.toList ∧ ({} : Memory).Named ∧
    damagedPlace.setup.makeOutputRoot.run.run (diskOf damagedFiles) = (.ok (), damagedPlace.ready) ∧
    damagedPlace.setup.createTypes.run.run { disk := diskOf damagedFiles } = (.ok result, after) ∧
    result.report.typesWritten = 2 ∧ result.report.failedModules = ["web"] ∧
    (damagedPlace.setup.planTypes.run.run ⟨{}, damagedPlace.ready⟩).1 = .ok plan ∧
    (plan.modules.mapM (damagedPlace.setup.tryTypes plan.streams)).run damagedPlace.ready =
      (trials, after.disk) ∧
    damagedPlace.TypesPass plan trials result.report after.disk ∧
    damagedPlace.setup.Approach [] [] [] "packages" (diskOf damagedFiles).tree ∧
    ∀ loc, Beneath ["packages"] loc →
      damagedPlace.ready.tree.find? loc = (diskOf damagedFiles).tree.find? loc := by
  have hmake : damagedPlace.setup.makeOutputRoot.run.run (diskOf damagedFiles) =
      (.ok (), damagedPlace.ready) := by
    unfold damagedPlace
    simp only
    exact make_readyOf (by decide +kernel)
  have hreport : (damagedPlace.setup.createTypes.run.run
      { disk := diskOf damagedFiles }).1.toOption.any (fun result =>
        result.report.typesWritten = 2 && result.report.failedModules = ["web"]) = true := by
    decide +kernel
  cases hrun : damagedPlace.setup.createTypes.run.run { disk := diskOf damagedFiles } with
  | mk made after =>
    rw [hrun] at hreport
    cases made with
    | error failure => cases hreport
    | ok result =>
      obtain ⟨plan, trials, hplan, htrials, hpass, hkept⟩ :=
        @createTypes_gated damagedPlace { disk := diskOf damagedFiles } _ _ (by decide)
          Memory.named_empty hmake hrun
      obtain ⟨hwritten, hfailed⟩ := (Bool.and_eq_true _ _).mp hreport
      exact ⟨result, after, plan, trials, by decide, Memory.named_empty, hmake, rfl,
        of_decide_eq_true hwritten, of_decide_eq_true hfailed, hplan, htrials, hpass,
        approach_damagedFiles, hkept _ _ _ approach_damagedFiles⟩

/-- The types of a build change something in the directory of a module that there are issues with.
-/
def changesGated (settings : Settings) (disk : Disk) (loc : Location) : Bool :=
  match (setupOf settings).createTypes.run.run { disk } with
  | (.ok result, after) => after.disk.tree.find? loc != disk.tree.find? loc &&
      result.report.failures.any fun record =>
        record.issue?.isSome && [record.module, "packages"].isSuffixOf loc
  | (.error _, _) => false

/-- Files that an extension with a slash names are those of another module. Before any types are
written, a clean build takes away what the module's directory had, and a path that turns back makes
directories in it. -/
theorem changesGated_slash_clean_turn :
    changesGated { webSettings with extension := "d/../../../M/own.ts" }
      (diskOf [(["own.ts", "M"], "export namespace X \x7b\n\x7d\nexport namespace M \x7b\n"),
        (["kept", "input.d", "types", "sdk"], ""), (["kept", "output.d", "types", "sdk"], ""),
        (["kept", "M", "packages"], ""), (["kept", "index.d", "types", "X", "packages"], ""),
        (["kept", "input.d", "types", "X", "packages"], ""),
        (["kept", "output.d", "types", "X", "packages"], "")])
      ["own.ts", "M", "packages"] = true ∧
    changesGated { webSettings with clean := true }
      (diskOf ((["old.ts", "web", "packages"], "") :: damagedFiles)) ["old.ts", "web", "packages"] =
        true ∧
    changesGated { webSettings with outputRoot := ⟨"/packages/web/types/../.."⟩ }
      (diskOf damagedFiles) ["types", "web", "packages"] = true := by
  refine ⟨?_, ?_, ?_⟩ <;> decide +kernel

end Damaged

end Workplace

end Unbundle.Build
