import Unbundle.Proofs.Build.Distinct
import Unbundle.Proofs.Build.TypesFiles

/-! What a build without failures delivers. Each unit has come to its end, the files that it wrote
are there when the build is over, and so the types of every scope and every implementation file are
as they were meant to be. -/

namespace Unbundle.Build
open Unbundle.Files Unbundle.Types Unbundle.Implementation Unbundle.Declaration

section Failures
variable {plan : Plan} {outcomes : List Outcome} {units : List WorkUnit} {unit : WorkUnit}
  {outcome : Outcome}

theorem failures_of_collect (h : (collect units outcomes).failures = []) (hunit : unit ∈ units)
    (hfind : outcomes.find? (·.unit = unit) = some outcome) : outcome.failures = [] := by
  have hmem : outcome ∈ units.filterMap fun unit => outcomes.find? (·.unit = unit) :=
    List.mem_filterMap.2 ⟨unit, hunit, hfind⟩
  exact List.map_eq_nil_iff.1 (List.flatMap_eq_nil_iff.1 h outcome hmem)

theorem stage_of_failures {stage : String} {units : Except Failure (List WorkUnit)}
    (h : (stageReport stage units outcomes).failures = []) :
    ∃ planned, units = .ok planned ∧ (collect planned outcomes).failures = [] := by
  cases units with
  | ok planned => exact ⟨planned, rfl, h⟩
  | error failure => cases h

theorem failures_of_report (h : (plan.report outcomes).failures = []) :
    (∃ types, plan.types = .ok types) ∧ (∃ modules, plan.modules = .ok modules) ∧
    ∀ unit ∈ plan.units, ∀ outcome, outcomes.find? (·.unit = unit) = some outcome →
      outcome.failures = [] := by
  have hall := @stableSort_perm _ (fun a b : FailureRecord => decide (a.module ≤ b.module))
    ((stageReport modulesStage plan.implementationUnits outcomes).append
      (stageReport typesStage plan.typesUnits outcomes)).failures
  have hnil : stableSort _ _ = [] := h
  rw [hnil, List.nil_perm] at hall
  obtain ⟨hmodules, htypes⟩ := List.append_eq_nil_iff.1 hall
  obtain ⟨implementations, hplanned, hmodules⟩ := stage_of_failures hmodules
  obtain ⟨types, hplanned', htypes⟩ := stage_of_failures htypes
  refine ⟨?_, ?_, fun unit hunit outcome hfind => ?_⟩
  · unfold Plan.typesUnits at hplanned'
    cases htypes : plan.types with
    | ok types => exact ⟨types, rfl⟩
    | error failure =>
      rw [htypes] at hplanned'
      cases hplanned'
  · unfold Plan.implementationUnits at hplanned
    cases hmodules : plan.modules with
    | ok modules => exact ⟨modules, rfl⟩
    | error failure =>
      rw [hmodules] at hplanned
      cases hplanned
  · unfold Plan.units at hunit
    rw [hplanned, hplanned'] at hunit
    rcases List.mem_append.1 hunit with hunit | hunit
    · exact failures_of_collect htypes hunit hfind
    · exact failures_of_collect hmodules hunit hfind

end Failures

namespace Workplace

section Units
variable {w : Workplace} {types : Except Failure TypesPlan} {unit : WorkUnit}
  {units order : List WorkUnit} {d : Disk} {names : List String} {content : ByteArray} {plan : Plan}
  {outcomes : List Outcome} {after : Disk}

theorem Tidy.find?_runUnits (tidy : w.Tidy) (htypes : TypesNamed types) (hunit : w.Suits unit)
    (hunits : ∀ other ∈ units, w.Suits other) (hnew : unit ∉ units) (hd : w.Underway d)
    (hfiles : (w.foot types unit).files names)
    (hfile : d.tree.find? (names.reverse ++ w.output) = some (.file content)) :
    ((w.setup.runUnits types units).run d).2.tree.find? (names.reverse ++ w.output) =
      some (.file content) := by
  induction units generalizing d with
  | nil => exact hfile
  | cons other units ih =>
    obtain ⟨hother, hunits⟩ := List.forall_mem_cons.1 hunits
    obtain ⟨hne, hnew⟩ := not_or.1 (mt List.mem_cons.2 hnew)
    have hconcurs : w.Concurs (w.Deeds types other) (w.setup.runUnit types other) :=
      .runUnit tidy.extension htypes hother
    rw [run_runUnits_cons]
    refine ih hunits hnew (hconcurs.underway hd) ?_
    refine (hconcurs.marks hd).find?_file hfile fun names' heq => ?_
    rw [List.append_left_inj, List.reverse_inj] at heq
    exact tidy.files_disjoint hne hunit hother (heq ▸ hfiles)

/-- A unit of a run comes to its own outcome, on a disk that the units before it have left. Its
files are there from then on. -/
theorem Tidy.exists_runUnit (tidy : w.Tidy) (htypes : TypesNamed types)
    (hunits : ∀ unit ∈ units, w.Suits unit) (hnodup : units.Nodup) (hd : w.Underway d)
    (hunit : unit ∈ units) : ∃ d', w.Underway d' ∧
      ((w.setup.runUnits types units).run d).1.find? (·.unit = unit) =
        some ((w.setup.runUnit types unit).run d').1 ∧
      ∀ done, done <+: units → unit ∈ done → ∀ names content,
        (w.foot types unit).files names →
        ((w.setup.runUnit types unit).run d').2.tree.find? (names.reverse ++ w.output) =
          some (.file content) →
        ((w.setup.runUnits types done).run d).2.tree.find? (names.reverse ++ w.output) =
          some (.file content) := by
  induction units generalizing d with
  | nil => cases hunit
  | cons first units ih =>
    obtain ⟨hfirst, hrest⟩ := List.forall_mem_cons.1 hunits
    obtain ⟨hnew, hnodup⟩ := List.nodup_cons.1 hnodup
    have hconcurs : w.Concurs (w.Deeds types first) (w.setup.runUnit types first) :=
      .runUnit tidy.extension htypes hfirst
    have hunitOf : ((w.setup.runUnit types first).run d).1.unit = first := unit_runUnit
    have hsplit : ∀ done, done <+: first :: units → unit ∈ done →
        ∃ more, done = first :: more ∧ more <+: units := fun done hdone hmem =>
      (List.prefix_cons_iff.1 hdone).resolve_left fun hnil => by simp [hnil] at hmem
    rw [run_runUnits_cons, List.find?_cons]
    rcases List.mem_cons.1 hunit with rfl | hmem
    · refine ⟨d, hd, by simp [hunitOf], fun done hdone hmem names content hfiles hfile => ?_⟩
      obtain ⟨more, rfl, hmore⟩ := hsplit done hdone hmem
      rw [run_runUnits_cons]
      exact tidy.find?_runUnits htypes hfirst (fun other hother => hrest other (hmore.mem hother))
        (fun hagain => hnew (hmore.mem hagain)) (hconcurs.underway hd) hfiles hfile
    · have hne : first ≠ unit := fun heq => hnew (heq ▸ hmem)
      obtain ⟨d', hd', hfind, hfiles⟩ := ih hrest hnodup (hconcurs.underway hd) hmem
      refine ⟨d', hd', by simpa [hunitOf, hne] using hfind, fun done hdone hthere => ?_⟩
      obtain ⟨more, rfl, hmore⟩ := hsplit done hdone hthere
      rw [run_runUnits_cons]
      exact hfiles more hmore ((List.mem_cons.1 hthere).resolve_left hne.symm)

theorem Staged.exists_run (h : w.Staged plan order outcomes after) (tidy : w.Tidy)
    (hok : (plan.report outcomes).failures = []) (hunit : unit ∈ plan.units) :
    ∃ d, w.Underway d ∧ ((w.setup.runUnit plan.types unit).run d).1.failures = [] ∧
      ∀ done, done <+: order → unit ∈ done → ∀ names content,
        (w.foot plan.types unit).files names →
        ((w.setup.runUnit plan.types unit).run d).2.tree.find? (names.reverse ++ w.output) =
          some (.file content) →
        ((w.setup.runUnits plan.types done).run w.ready).2.tree.find?
          (names.reverse ++ w.output) = some (.file content) := by
  obtain ⟨d, hd, hfind, hfiles⟩ := tidy.exists_runUnit h.named
    (fun unit hmem => h.suits unit (h.perm.mem_iff.1 hmem)) (h.perm.nodup_iff.2 h.nodup)
    w.underway_ready (h.perm.mem_iff.2 hunit)
  rw [h.run] at hfind
  exact ⟨d, hd, (failures_of_report hok).2.2 unit hunit _ hfind, hfiles⟩

end Units

section Types
variable {w : Workplace} {streams : Streams} {module : String} {version other : Option String}
  {versions : List (Option String)} {names : List String} {outcome : Outcome} {d : Disk}
  {content : ByteArray} {extension : String}

theorem run_countTypes {work : Work TypesSummary} : (Setup.countTypes outcome work).run d =
    match work.run.run d with
    | (.ok _, d') => ({ outcome with typesWritten := outcome.typesWritten + 1 }, d')
    | (.error failure, d') => ({ outcome with failures := outcome.failures ++ [failure] }, d') := by
  unfold Setup.countTypes
  rw [runState_bind]
  rcases work.run.run d with ⟨result, d'⟩
  cases result <;> rfl

theorem TypesFile.eq_append {scope : List String} (h : TypesFile extension scope names) :
    ∃ stem, names = scope ++ [typesName, fileName stem extension] ∨
      names = scope ++ [typesName, enumsName, fileName stem extension] := by
  cases h with
  | @own stem => exact ⟨stem, .inl (by simp)⟩
  | @enums stem => exact ⟨stem, .inr (by simp)⟩

theorem TypesFile.scope_eq (h : TypesFile extension (scopeDir module version) names)
    (hother : TypesFile extension (scopeDir module other) names) : version = other := by
  have hne : enumsName ≠ typesName := by decide
  obtain ⟨stem, hnames⟩ := h.eq_append
  obtain ⟨stem', hnames'⟩ := hother.eq_append
  cases version <;> cases other <;> rcases hnames with rfl | rfl <;>
    rcases hnames' with heq | heq <;> simp_all [scopeDir]

def writeScopes (w : Workplace) (streams : Streams) (module : String)
    (versions : List (Option String)) (outcome : Outcome) : StateM Disk Outcome :=
  versions.foldlM (fun outcome version => Setup.countTypes outcome
    (w.setup.writeScopeTypes streams module version)) outcome

theorem run_writeScopes_cons :
    (w.writeScopes streams module (version :: versions) outcome).run d =
      (w.writeScopes streams module versions ((Setup.countTypes outcome
        (w.setup.writeScopeTypes streams module version)).run d).1).run
        ((Setup.countTypes outcome (w.setup.writeScopeTypes streams module version)).run d).2 := by
  unfold writeScopes
  rw [List.foldlM_cons]
  rfl

theorem failures_of_writeScopes
    (h : ((w.writeScopes streams module versions outcome).run d).1.failures = []) :
    outcome.failures = [] := by
  induction versions generalizing outcome d with
  | nil => exact h
  | cons version versions ih =>
    rw [run_writeScopes_cons] at h
    have hcount := ih h
    rw [run_countTypes] at hcount
    rcases hrun : (w.setup.writeScopeTypes streams module version).run.run d with ⟨result, d'⟩
    rw [hrun] at hcount
    cases result with
    | ok summary => exact hcount
    | error failure => simp at hcount

theorem Serial.writeScopes (hextension : '/' ∉ w.setup.settings.extension.toList)
    (hstreams : streams.Named) (hmodule : IsName module)
    (hversions : ∀ version ∈ versions, version ∈ streams.scopesOf module) :
    w.Serial (fun deed => ∃ version ∈ versions, ScopeTypes.IsDeed w.setup.settings.outputRoot
      (scopeDir module version) w.setup.settings.extension deed)
      (w.writeScopes streams module versions outcome) := by
  refine .foldlM fun outcome version hversion => .countTypes ?_
  have hscope := Serial.script (Scripted.writeScopeTypes hextension hstreams hmodule
    (hversions version hversion))
  exact hscope.mono fun deed hdeed => ⟨version, hversion, hdeed⟩

/-- Where no scope failed, the types of each were written, and stay while those of others are. -/
theorem exists_written (hextension : '/' ∉ w.setup.settings.extension.toList)
    (hstreams : streams.Named) (hmodule : IsName module)
    (hversions : ∀ version ∈ versions, version ∈ streams.scopesOf module) (hnodup : versions.Nodup)
    (hd : w.Underway d)
    (hok : ((w.writeScopes streams module versions outcome).run d).1.failures = [])
    (hversion : version ∈ versions) : ∃ types d₁ d₂, w.OfScope streams module version types ∧
      types.Written w.setup.settings.outputRoot w.output (scopeDir module version)
        w.setup.settings.extension d₁ d₂ ∧
      ∀ names content, TypesFile w.setup.settings.extension (scopeDir module version) names →
        d₂.tree.find? (names.reverse ++ w.output) = some (.file content) →
        ((w.writeScopes streams module versions outcome).run d).2.tree.find?
          (names.reverse ++ w.output) = some (.file content) := by
  induction versions generalizing d outcome with
  | nil => cases hversion
  | cons first versions ih =>
    obtain ⟨hfirst, hrest⟩ := List.forall_mem_cons.1 hversions
    obtain ⟨hnew, hnodup⟩ := List.nodup_cons.1 hnodup
    have hscripted := Scripted.writeScopeTypes hextension hstreams hmodule hfirst
    have hunderway := hscripted.concurs.underway hd
    rw [run_writeScopes_cons, run_countTypes] at hok ⊢
    rcases hrun : (w.setup.writeScopeTypes streams module first).run.run d with ⟨result, d'⟩
    rw [hrun] at hok hunderway
    cases result with
    | error failure =>
      simpa using failures_of_writeScopes hok
    | ok summary =>
      rcases List.mem_cons.1 hversion with rfl | hmem
      · obtain ⟨deeds, hdeeds, -, hperform, types, htypes, rfl⟩ := hscripted.performed hd hrun
        refine ⟨types, d, d', htypes, ⟨hd.standing, fun deed hdeed => (hdeeds deed hdeed).1,
          hperform⟩, fun names content hnames hfile => ?_⟩
        -- the other scopes have files of their own
        refine ((Serial.writeScopes hextension hstreams hmodule hrest).concurs.marks
          hunderway).find?_file hfile fun names' heq hfoot => ?_
        rw [List.append_left_inj, List.reverse_inj] at heq
        obtain ⟨blame, dir, name, content', ⟨other, hother, hdeed⟩, hnames'⟩ := hfoot
        subst heq hnames'
        obtain rfl := hnames.scope_eq (typesFile_of_isDeed hdeed)
        exact hnew hother
      · exact ih hrest hnodup hunderway hok hmem

theorem types_of_failures {types : Except Failure TypesPlan} {plan : TypesPlan}
    (htypes : types = .ok plan) (hextension : '/' ∉ w.setup.settings.extension.toList)
    (hstreams : plan.streams.Named) (hmodule : IsName module) (hd : w.Underway d)
    (hok : ((w.setup.runUnit types (.types module)).run d).1.failures = [])
    (hversion : version ∈ plan.streams.scopesOf module) : ∃ found d₁ d₂,
      w.OfScope plan.streams module version found ∧
      found.Written w.setup.settings.outputRoot w.output (scopeDir module version)
        w.setup.settings.extension d₁ d₂ ∧
      ∀ names content, TypesFile w.setup.settings.extension (scopeDir module version) names →
        d₂.tree.find? (names.reverse ++ w.output) = some (.file content) →
        ((w.setup.runUnit types (.types module)).run d).2.tree.find? (names.reverse ++ w.output) =
          some (.file content) := by
  subst htypes
  have hunit : w.setup.runUnit (.ok plan) (.types module) =
      w.setup.runTypes plan.streams module := rfl
  have hissues : (plan.streams.issuesOf module).isEmpty = true := by
    rw [hunit] at hok
    unfold Setup.runTypes at hok
    simp only at hok
    split at hok
    · next hissues => exact hissues
    · next hissues =>
      have hnil : (plan.streams.issuesOf module).map Failure.structural = [] := hok
      simp [List.map_eq_nil_iff.1 hnil] at hissues
  have hnodup : (plan.streams.scopesOf module).Nodup := by
    refine List.nodup_cons.2 ⟨by simp, ?_⟩
    exact nodup_toList.map fun _ _ => Option.some.inj
  have hruns : w.setup.runTypes plan.streams module = w.writeScopes plan.streams module
      (plan.streams.scopesOf module) { unit := .types module } := Setup.runTypes_eq hissues
  rw [hunit, hruns] at hok ⊢
  exact exists_written hextension hstreams hmodule (fun _ => id) hnodup hd hok hversion

end Types

def fileContext (w : Workplace) (module : String) : Option String → String → Context
  | none, name => w.setup.settings.adapter.moduleContext module name
  | some version, name => w.setup.settings.adapter.versionContext module version name

/-- The source has a file in a module's directory, or in the directory of one of its versions. -/
structure HasFile (w : Workplace) (module : String) (version : Option String) (name text : String) :
    Prop where
  directory : ∀ v ∈ version, w.ready.tree.find? (v :: module :: w.source) = some .directory
  has : w.HasText (scopeDir module version ++ [name]) text

section Implementation
variable {w : Workplace} {types : Except Failure TypesPlan} {module name text : String}
  {version : Option String} {d : Disk} {names : List String} {deed : Deed} {deeds : List Deed}

theorem HasText.unique {other : String} (h : w.HasText names text) (h' : w.HasText names other) :
    text = other := by
  obtain ⟨bytes, hbytes, htext⟩ := h
  obtain ⟨bytes', hbytes', hother⟩ := h'
  cases hbytes.symm.trans hbytes'
  exact Option.some.inj (htext.symm.trans hother)

theorem HasText.mem_children {dir : List String} (h : w.HasText (dir ++ [name]) text) :
    ∃ bytes, (name, .file bytes) ∈ w.ready.tree.children (dir.reverse ++ w.source) := by
  obtain ⟨bytes, hbytes, -⟩ := h
  exact ⟨bytes, FileTree.mem_children.2 (by simpa using hbytes)⟩

def adaptedDeed (w : Workplace) (module : String) (version : Option String) (name text : String) :
    Deed :=
  w.adapted (scopeDir module version) (w.fileContext module version name) name text

theorem HasFile.mem_deeds (h : w.HasFile module version name text)
    (hdeeds : ∀ entry ∈ w.ready.tree.children (module :: w.source), w.AdaptsEntry module entry deeds) :
    w.adaptedDeed module version name text ∈ deeds := by
  obtain ⟨bytes, hchild⟩ := h.has.mem_children
  cases version with
  | none =>
    obtain ⟨found, hfound, hmem⟩ := hdeeds _ hchild
    rwa [h.has.unique hfound]
  | some version =>
    have hversion := FileTree.mem_children.2 (h.directory version rfl)
    obtain ⟨found, hfound, hmem⟩ := hdeeds _ hversion _ hchild
    rwa [h.has.unique hfound]

theorem HasFile.unique (h : w.HasFile module version name text) {blame : Files.Path}
    {dir : List String} {other : String} {content : ByteArray}
    (hdeed : w.IsAdapted module (.write blame dir other content))
    (heq : dir ++ [other] = scopeDir module version ++ [name]) :
    content = (adaptSource w.setup.settings.imports (w.fileContext module version name)
      text).toUTF8 := by
  cases version with
  | none =>
    cases hdeed with
    | file _ has =>
      obtain rfl : other = name := by simpa [scopeDir] using heq
      rw [h.has.unique has]
      rfl
    | versionFile => simp [scopeDir] at heq
  | some version =>
    cases hdeed with
    | file => simp [scopeDir] at heq
    | versionFile _ _ _ has =>
      obtain ⟨rfl, rfl⟩ : _ = version ∧ other = name := by simpa [scopeDir] using heq
      rw [h.has.unique has]
      rfl

theorem HasFile.foot (h : w.HasFile module version name text) :
    (w.foot types (.implementation module)).files (scopeDir module version ++ [name]) := by
  obtain ⟨bytes, hchild⟩ := h.has.mem_children
  have hname := FileTree.isName_of_mem_children hchild
  cases version with
  | none => exact ⟨_, _, _, _, .file hname h.has, rfl⟩
  | some version =>
    have hfound := h.directory version rfl
    have hversion := FileTree.isName_of_mem_children (FileTree.mem_children.2 hfound)
    exact ⟨_, _, _, _, .versionFile hversion hname hfound h.has, rfl⟩

theorem run_makePackage {setup : Setup} {unit : WorkUnit} {package : Package} {work : Work Unit} :
    (setup.makePackage unit package work).run d =
      match work.run.run d with
      | (.error failure, d') => ({ unit, failures := [failure] }, d')
      | (.ok (), d') =>
        match setup.hook package with
        | .error failure => ({ unit, failures := [failure], announced := [package] }, d')
        | .ok () => ({ unit, built := true, announced := [package] }, d') := by
  unfold Setup.makePackage
  rw [runState_bind]
  rcases work.run.run d with ⟨result, d'⟩
  cases result with
  | error failure => rfl
  | ok =>
    simp only
    cases setup.hook package <;> rfl

theorem run_of_makePackage {unit : WorkUnit} {package : Package} {work : Work Unit}
    (h : ((w.setup.makePackage unit package work).run d).1.failures = []) :
    work.run.run d = (.ok (), ((w.setup.makePackage unit package work).run d).2) := by
  rw [run_makePackage] at h ⊢
  revert h
  rcases work.run.run d with ⟨result, d'⟩
  cases result with
  | error failure => exact nofun
  | ok =>
    simp only
    cases w.setup.hook package with
    | error failure => exact nofun
    | ok => exact fun _ => rfl

theorem implementation_of_failures (hmodule : w.Discovered module) (hd : w.Underway d)
    (hok : ((w.setup.runUnit types (.implementation module)).run d).1.failures = [])
    (h : w.HasFile module version name text) :
    ((w.setup.runUnit types (.implementation module)).run d).2.tree.find?
      ((scopeDir module version ++ [name]).reverse ++ w.output) = some (.file
        (adaptSource w.setup.settings.imports (w.fileContext module version name) text).toUTF8) := by
  have hname : IsName module :=
    FileTree.isName_of_mem_children (FileTree.mem_children.2 hmodule.1)
  have hscripted : w.Scripted [] (w.IsAdapted module)
      (discard (w.setup.settings.adapter.adaptModule module)) fun _ deeds =>
        ∀ entry ∈ w.ready.tree.children (module :: w.source), w.AdaptsEntry module entry deeds :=
    (Scripted.adaptModule hname hmodule.1).map fun _ _ h => h
  have hunit : w.setup.runUnit types (.implementation module) =
      w.setup.makePackage (.implementation module) (.module w.setup.settings.packages module)
        (discard (w.setup.settings.adapter.adaptModule module)) := rfl
  rw [hunit] at hok ⊢
  obtain ⟨deeds, hdeeds, hfounded, hperform, hadapts⟩ :=
    hscripted.performed hd (run_of_makePackage hok)
  refine find?_perform hd.standing (fun deed hdeed => (hdeeds deed hdeed).1) hfounded
    (fun _ => nofun) hperform (fun blame' dir' name' content' hmem heq => ?_)
    (.inr ⟨_, h.mem_deeds hadapts⟩)
  exact h.unique (hdeeds _ hmem).2 heq

end Implementation

end Workplace

end Unbundle.Build
