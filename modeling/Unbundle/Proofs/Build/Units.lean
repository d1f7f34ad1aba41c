import Unbundle.Build.Session
import Unbundle.Proofs.Build.Site

/-! The units of a build on two disks side by side: the types of a module, its implementation files
and the core package. Each is in step where the site of its name is sound. -/

namespace Unbundle.Build
open Std (ExtTreeMap ExtTreeSet)
open Unbundle.Files Unbundle.Declaration Unbundle.Types

/-- Texts by versions whose names can be joined to a path. -/
def Keyed (texts : ExtTreeMap String String) : Prop := ∀ version ∈ texts, IsName version

theorem Keyed.empty : Keyed ∅ := fun _ h => absurd h ExtTreeMap.not_mem_empty

theorem Keyed.insert {texts : ExtTreeMap String String} {version text : String} (h : Keyed texts)
    (hname : IsName version) : Keyed (texts.insert version text) := by
  intro other hmem
  rcases ExtTreeMap.mem_insert.1 hmem with heq | hmem
  · rwa [← Std.LawfulEqOrd.eq_of_compare heq]
  · exact h other hmem

theorem isName_typesName : IsName typesName := by decide

theorem isName_enumsName : IsName enumsName := by decide

section Types
variable {R : Disk → Disk → Prop} {settings : Settings} {grounds : List FileTree}
  {home output : Location} {module version : String} {rest : List String} {path : Files.Path}
  {types : ScopeTypes} {direction : Direction}

theorem Site.readEnums (site : Site R settings grounds home output module) {names : List String}
    (hnames : ∀ name ∈ names, IsName name) :
    InStep R (Work.readText? (sourcePath settings (typesName :: enumsName :: module ::
      (names ++ [fileName indexStem settings.extension])))) fun _ _ => True := by
  refine InStep.readText? fun d e hR => site.entry .enums ?_ hR
  have hfile : IsName (fileName indexStem settings.extension) := site.isName_fileName (by decide)
  simp only [List.mem_cons, List.mem_append, List.not_mem_nil, or_false]
  rintro name (rfl | rfl | rfl | hname | rfl)
  · exact isName_typesName
  · exact isName_enumsName
  · exact site.name
  · exact hnames name hname
  · exact hfile

theorem Site.moduleEnums? (site : Site R settings grounds home output module) :
    InStep R (moduleEnums? settings.sdk module) fun _ _ => True :=
  @Site.readEnums _ _ _ _ _ _ site [] (by simp)

theorem Site.versionEnums? (site : Site R settings grounds home output module)
    (hversion : IsName version) :
    InStep R (versionEnums? settings.sdk module version) fun _ _ => True := by
  have hread : InStep R (Work.readText? (settings.sdk.versionEnums module version))
      fun _ _ => True := @Site.readEnums _ _ _ _ _ _ site [version] (by simpa using hversion)
  exact .bind hread fun _ _ _ => .pure fun _ => trivial

theorem Site.addVersionEnums (site : Site R settings grounds home output module)
    {texts : ExtTreeMap String String} (htexts : Keyed texts) (hversion : IsName version) :
    InStep R (addVersionEnums settings.sdk module texts version) fun texts _ => Keyed texts := by
  refine .bind (site.versionEnums? hversion) fun text _ _ => ?_
  cases text with
  | some text => exact .pure fun _ => htexts.insert hversion
  | none => exact .pure fun _ => htexts

theorem Site.allVersionEnums (site : Site R settings grounds home output module) :
    InStep R (allVersionEnums settings.sdk module) fun texts _ => Keyed texts := by
  have hnames : ∀ name ∈ [typesName, enumsName, module], IsName name := by
    simpa using ⟨isName_typesName, isName_enumsName, site.name⟩
  have hpath : settings.sdk.enums.join module =
      sourcePath settings [typesName, enumsName, module] := rfl
  have hlist : InStep R (Work.listIfPresent (settings.sdk.enums.join module))
      fun entries _ => Listed entries := by
    rw [hpath]
    exact InStep.listIfPresent fun d e hR => site.list .enums hnames hR
  refine .bind hlist fun entries _ hentries => ?_
  refine .foldlM Keyed.empty fun texts version hversion htexts => ?_
  exact site.addVersionEnums htexts (isName_of_mem_directoryNames hentries hversion)

theorem Site.writeFile (site : Site R settings grounds home output module) {stem : String}
    (h : path.Leads grounds home output (module :: rest)) (hstem : IsName stem) (text : String) :
    InStep R (Work.writeText (path.join (fileName stem settings.extension)) text)
      fun _ _ => True :=
  site.writeText h (site.isName_fileName hstem) text

theorem Site.writeEnums (site : Site R settings grounds home output module)
    (h : path.Leads grounds home output (module :: rest)) (htexts : Keyed types.versionEnums) :
    InStep R (types.writeEnums path settings.extension) fun _ _ => True := by
  have hdirectory : (path.join enumsName).Leads grounds home output
      (module :: (rest ++ [enumsName])) := h.join isName_enumsName
  unfold ScopeTypes.writeEnums
  split
  · refine .bind (site.makeDirectories hdirectory) fun _ _ _ => ?_
    refine .bind (.forM fun entry hentry => ?_) fun _ _ _ =>
      site.writeFile hdirectory (by decide) _
    have hkey := ExtTreeMap.mem_toList_iff_getElem?_eq_some.1 hentry
    have hmem := ExtTreeMap.mem_iff_isSome_getElem?.2 (Option.isSome_of_eq_some hkey)
    exact site.writeFile hdirectory (htexts _ hmem) _
  · split
    · exact site.writeFile h (by decide) _
    · exact .pure fun _ => trivial

theorem Site.writeSlice (site : Site R settings grounds home output module)
    (h : path.Leads grounds home output (module :: rest)) :
    InStep R (types.writeSlice path settings.extension direction) fun _ _ => True := by
  have hstem : IsName direction.stem := by cases direction <;> decide
  unfold ScopeTypes.writeSlice
  split
  · exact site.writeFile h hstem _
  · exact .pure fun _ => trivial

theorem Site.writeTypes (site : Site R settings grounds home output module)
    (h : path.Leads grounds home output (module :: rest)) (htexts : Keyed types.versionEnums) :
    InStep R (types.write path settings.extension) fun _ _ => True := by
  have hdirectory : (typesDirectory path).Leads grounds home output
      (module :: (rest ++ [typesName])) := h.join isName_typesName
  unfold ScopeTypes.write
  refine .bind (site.makeDirectories hdirectory) fun _ _ _ => ?_
  refine .bind (site.writeEnums hdirectory htexts) fun _ _ _ => ?_
  refine .bind (site.writeSlice hdirectory) fun _ _ _ => ?_
  refine .bind (site.writeSlice hdirectory) fun _ _ _ => ?_
  exact .bind (site.writeFile hdirectory (by decide) _) fun _ _ _ => .pure fun _ => trivial

end Types

section Units
variable {R : Disk → Disk → Prop} {setup : Setup} {grounds : List FileTree} {home output : Location}
  {module version : String} {streams : Streams}

theorem Site.writeModuleTypes (site : Site R setup.settings grounds home output module) :
    InStep R (setup.writeModuleTypes streams module) fun _ _ => True := by
  have hwrite : ∀ (enums : Option String) (texts : ExtTreeMap String String), Keyed texts →
      InStep R (ScopeTypes.write ⟨streams.inputs.modules[module]?.map (·.own),
        streams.outputs.modules[module]?.map (·.own), enums, texts⟩
        (setup.settings.packages.module module) setup.settings.extension) fun _ _ => True :=
    fun _ _ htexts => site.writeTypes site.leads_module htexts
  unfold Setup.writeModuleTypes
  refine .bind site.moduleEnums? fun enums _ _ => ?_
  simp only
  split
  · exact .bind (Q := fun texts _ => Keyed texts) (.pure fun _ => .empty) fun texts _ htexts =>
      hwrite enums texts htexts
  · exact .bind site.allVersionEnums fun texts _ htexts => hwrite enums texts htexts

theorem Site.writeVersionTypes (site : Site R setup.settings grounds home output module)
    (hversion : IsName version) :
    InStep R (setup.writeVersionTypes streams module version) fun _ _ => True := by
  unfold Setup.writeVersionTypes
  refine .bind (site.versionEnums? hversion) fun enums _ _ => ?_
  exact site.writeTypes (site.leads_version hversion) .empty

/-- Both streams name what can be joined to a path. -/
structure Streams.Named (streams : Streams) : Prop where
  inputs : streams.inputs.Named
  outputs : streams.outputs.Named

/-- The stream of a direction. -/
def Streams.stream (streams : Streams) : Direction → Stream
  | .inputs => streams.inputs
  | .outputs => streams.outputs

theorem mem_versions_iff {stream : Stream} : version ∈ (match stream.modules[module]? with
    | some types => types.versions.keys
    | none => []) ↔ ∃ types, stream.modules[module]? = some types ∧ version ∈ types.versions := by
  cases stream.modules[module]? with
  | none => simp
  | some types => simp [ExtTreeMap.mem_keys]

theorem Streams.mem_versionsOf : version ∈ streams.versionsOf module ↔ ∃ direction types,
    (streams.stream direction).modules[module]? = some types ∧ version ∈ types.versions := by
  unfold versionsOf
  rw [ExtTreeSet.mem_toList, ExtTreeSet.mem_ofList, List.contains_iff_mem, List.mem_append]
  constructor
  · rintro (h | h)
    · exact ⟨.inputs, mem_versions_iff.1 h⟩
    · exact ⟨.outputs, mem_versions_iff.1 h⟩
  · rintro ⟨direction, h⟩
    cases direction with
    | inputs => exact .inl (mem_versions_iff.2 h)
    | outputs => exact .inr (mem_versions_iff.2 h)

theorem Streams.Named.isIdentifier_of_mem_versionsOf (h : streams.Named)
    (hversion : version ∈ streams.versionsOf module) : IsIdentifier version.toList := by
  obtain ⟨direction, types, htypes, hversion⟩ := mem_versionsOf.1 hversion
  cases direction with
  | inputs => exact h.inputs.versions module types htypes version hversion
  | outputs => exact h.outputs.versions module types htypes version hversion

theorem Streams.Named.isName_of_mem_versionsOf (h : streams.Named)
    (hversion : version ∈ streams.versionsOf module) : IsName version :=
  isName_of_isIdentifier (h.isIdentifier_of_mem_versionsOf hversion)

theorem RunsInStep.countTypes {unit : WorkUnit} {outcome : Outcome} {work : Work TypesSummary}
    (hunit : outcome.unit = unit) (h : InStep R work fun _ _ => True) :
    RunsInStep R (Setup.countTypes outcome work) (·.unit = unit) := by
  refine .bind h.runs fun result _ => ?_
  cases result with
  | ok summary => exact .pure hunit
  | error failure => exact .pure hunit

theorem Site.runTypes (site : Site R setup.settings grounds home output module)
    (hstreams : streams.Named) :
    RunsInStep R (setup.runTypes streams module) (·.unit = .types module) := by
  unfold Setup.runTypes
  simp only
  split
  · refine .bind (RunsInStep.countTypes rfl site.writeModuleTypes) fun outcome hunit => ?_
    refine .foldlM hunit fun outcome version hversion hunit =>
      RunsInStep.countTypes hunit ?_
    exact site.writeVersionTypes (hstreams.isName_of_mem_versionsOf hversion)
  · exact .pure rfl

theorem RunsInStep.makePackage {unit : WorkUnit} {package : Package} {work : Work Unit}
    (h : InStep R work fun _ _ => True) :
    RunsInStep R (setup.makePackage unit package work) (·.unit = unit) := by
  refine .bind h.runs fun result _ => ?_
  cases result with
  | error failure => exact .pure rfl
  | ok =>
    simp only
    split
    · exact .pure rfl
    · exact .pure rfl

theorem Site.runImplementation (site : Site R setup.settings grounds home output module) :
    RunsInStep R (setup.runImplementation module) (·.unit = .implementation module) :=
  RunsInStep.makePackage (site.adaptModule.map fun _ _ _ => trivial)

/-- The files of the source root that the core package is made of are the same on both disks. -/
structure RootFiles (R : Disk → Disk → Prop) (settings : Settings) : Prop where
  entry : ∀ {stem d e}, stem ∈ indexStem :: copiedStems → R d e →
    d.entry (settings.sdk.rootFile stem) = e.entry (settings.sdk.rootFile stem)
  agrees : ∀ {stem d e loc entry}, stem ∈ indexStem :: copiedStems → R d e →
    d.entry (settings.sdk.rootFile stem) = .ok (loc, entry) →
    ∀ d' e', R d' e' → d'.tree.Agrees e'.tree loc

theorem Site.copyCoreFile (site : Site R setup.settings grounds home output coreName)
    (hfiles : RootFiles R setup.settings) {stem : String} (hstem : stem ∈ copiedStems) :
    InStep R (copyCoreFile setup.settings.sdk (.core setup.settings.packages) stem)
      fun _ _ => True := by
  have hname : IsName stem := by
    revert stem
    decide
  have hroot : stem ∈ indexStem :: copiedStems := List.mem_cons_of_mem _ hstem
  refine InStep.at (InStep.copyFile site.own site.grounded
    (site.leads_module.join (site.isName_fileName hname)) (along_own [_])
    (fun d e hR => hfiles.entry hroot hR) fun d e loc entry hR hfound => ?_)
  exact hfiles.agrees hroot hR hfound

theorem Site.runCore (site : Site R setup.settings grounds home output coreName)
    (hfiles : RootFiles R setup.settings) : RunsInStep R setup.runCore (·.unit = .core) := by
  have hindex : InStep R (Work.readText (setup.settings.sdk.rootFile indexStem))
      fun _ _ => True :=
    InStep.at (InStep.readText fun d e hR => hfiles.entry List.mem_cons_self hR)
  have hwrite : InStep R (writeCore setup.settings.sdk setup.settings.packages)
      fun _ _ => True := by
    unfold writeCore
    refine .bind (site.makeDirectories site.leads_module) fun _ _ _ => ?_
    refine .bind hindex fun index _ _ => ?_
    refine .bind (site.writeFile site.leads_module (by decide) _) fun _ _ _ => ?_
    exact .bind (.forM fun stem hstem => site.copyCoreFile hfiles hstem) fun _ _ _ =>
      .pure fun _ => trivial
  exact RunsInStep.makePackage (hwrite.map fun _ _ _ => trivial)

/-- Types are written from streams whose names can be joined to a path. -/
def TypesNamed (types : Except Failure TypesPlan) : Prop :=
  ∀ plan, types = .ok plan → plan.streams.Named

theorem Site.runUnit {types : Except Failure TypesPlan} {unit : WorkUnit}
    (site : Site R setup.settings grounds home output unit.name)
    (hfiles : RootFiles R setup.settings) (htypes : TypesNamed types) :
    RunsInStep R (setup.runUnit types unit) (·.unit = unit) := by
  cases unit with
  | core => exact site.runCore hfiles
  | implementation module => exact site.runImplementation
  | types module =>
    cases types with
    | ok plan => exact site.runTypes (htypes plan rfl)
    | error failure => exact .pure rfl

end Units

end Unbundle.Build
