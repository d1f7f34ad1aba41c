import Unbundle.Proofs.Build.Beside
import Unbundle.Proofs.Build.Opened
import Unbundle.Proofs.Implementation.Adapted

/-! The targets of re-exported enums. The entry file of a module or of a version re-exports the
enums of its scope from the tree of all enums; in the package it does so from the enums beside the
types that it goes by. Where the types have a place for these enums, they are there. -/

namespace Unbundle.Types
open Unbundle.Files Unbundle.Build

/-- What is written of an enum source: that of a module whole, and behind it the versions that stay
inline; that of a version from its first constant on. -/
inductive EnumsText (source : String) : Option String → String → Prop where
  | module {versions} : EnumsText source none (enumsIndex (some source) versions)
  | version {version} : EnumsText source (some version) (fromFirstConstant source)

/-- The files of a scope's enums, with their paths and names beside the types. -/
inductive ScopeTypes.EnumsFile (types : ScopeTypes) (extension : String) :
    (path : String) → (names : List String) → (text : String) → Prop where
  | file {text} (single : types.versionEnums.isEmpty = true) (own : types.enums = some text) :
    EnumsFile types extension enumsName [fileName enumsName extension] text
  | index (shared : types.versionEnums.isEmpty = false) :
    EnumsFile types extension enumsName [enumsName, fileName indexStem extension]
      (enumsIndex types.enums types.versionEnums.keys)
  | version {version text} (has : types.versionEnums[version]? = some text)
    (notIndex : version ≠ indexStem) :
    EnumsFile types extension (enumsName ++ "/" ++ version) [enumsName, fileName version extension]
      text

/-- A path in a file of a directory stands for another file: the path with the extension, or the
index of the directory that the path names. -/
def Imported (disk : Disk) (dir : Location) (extension path : String) (loc : Location)
    (text : String) : Prop :=
  ∃ file ∈ [fileName path extension, path ++ "/" ++ fileName indexStem extension],
    (disk.seenFrom dir).entry ⟨file⟩ = .ok (loc, .file text.toUTF8)

section EnumsFile
variable {types : ScopeTypes} {extension path text : String} {names : List String}
  {dir home : Location} {tree : FileTree} {disk : Disk} {base : Files.Path} {bytes : Nat}

theorem ScopeTypes.Laid.find?_enums (h : types.Laid dir extension tree)
    (hfile : types.EnumsFile extension path names text) :
    tree.find? (names.reverse ++ dir) = some (.file text.toUTF8) := by
  cases hfile with
  | file single own => exact h.own (.enums single own)
  | index shared => exact h.sharedIndex shared
  | version has notIndex => exact h.shared has notIndex

theorem ScopeTypes.EnumsFile.imported (hfile : types.EnumsFile extension path names text)
    (hfind : disk.tree.find? (names.reverse ++ dir) = some (.file text.toUTF8))
    (hleads : base.Leads [disk.tree] home dir []) (hshort : base.Short bytes)
    (hbytes : bytes + 2 * (1 + maxNameBytes) ≤ maxPathBytes)
    (hlink : ∀ {loc}, dir <:+ loc → disk.tree.NoLink loc) :
    Imported disk home extension (base.text ++ "/" ++ path) (names.reverse ++ dir) text := by
  have hname : isFileName enumsName = true := by decide
  -- the enums of versions are one directory further down
  have hbelow : ∀ {name : String},
      disk.tree.find? ([enumsName, name].reverse ++ dir) = some (.file text.toUTF8) →
      (disk.seenFrom home).entry ⟨base.text ++ "/" ++ enumsName ++ "/" ++ name⟩ =
        .ok ([enumsName, name].reverse ++ dir, .file text.toUTF8) := by
    intro name hfind
    have henums : disk.tree.find? (enumsName :: dir) = some .directory := FileTree.find?_dir hfind
    have hnested := hleads.enter_join (isName_of_isFileName hname) henums
    have hlonger := hshort.join hname
    rw [hshort.mk_join (isName_of_isFileName hname)] at hnested hlonger
    exact @Path.Leads.entry_slash ⟨base.text ++ "/" ++ enumsName⟩ (disk.seenFrom home) _ name _ _
      hnested hlonger (by omega) hfind (hlink (List.suffix_append [name, enumsName] dir))
  cases hfile with
  | file =>
    refine ⟨_, List.mem_cons_self, ?_⟩
    have hentry : (disk.seenFrom home).entry ⟨base.text ++ "/" ++ fileName enumsName extension⟩ =
        .ok ([fileName enumsName extension].reverse ++ dir, .file text.toUTF8) :=
      @Path.Leads.entry_slash base (disk.seenFrom home) _ _ _ _ hleads hshort (by omega) hfind
        (hlink (List.suffix_cons _ _))
    simpa only [fileName, String.append_assoc] using hentry
  | index =>
    refine ⟨_, List.mem_cons_of_mem _ List.mem_cons_self, ?_⟩
    simpa only [fileName, String.append_assoc] using hbelow hfind
  | version =>
    refine ⟨_, List.mem_cons_self, ?_⟩
    simpa only [fileName, String.append_assoc] using hbelow hfind

end EnumsFile

end Unbundle.Types

namespace Unbundle.Build
open Unbundle.Files Unbundle.Types Unbundle.Implementation Unbundle.Text Unbundle.Declaration

def enumsSource (sdk : SdkLayout) (module : String) : Option String → Files.Path
  | none => sdk.moduleEnums module
  | some version => sdk.versionEnums module version

namespace Workplace

/-- There is a directory, and no link to one, in the directory that a path names. -/
def HasDirectory (w : Workplace) (path : Files.Path) (name : String) : Prop :=
  ∃ entries, w.ready.list path = .ok entries ∧ (name, .directory) ∈ entries

/-- Types are written for a module that a stream mentions or that has a directory of enums. -/
def HasTypes (w : Workplace) (streams : Streams) (module : String) : Prop :=
  (mentions streams.inputs module ∨ mentions streams.outputs module) ∨
    w.HasDirectory w.setup.settings.sdk.enums module

/-- The types have a place for the enums of a scope. Where versions have types of their own, they do
for a version that a stream has. Where versions stay inline, they do for one that has a directory
among the enums of its module and is not called like the index of that directory. -/
inductive PlacesEnums (w : Workplace) (streams : Streams) (module : String) :
    Option String → Prop where
  | module (hasTypes : w.HasTypes streams module) : PlacesEnums w streams module none
  | version {version} (split : w.setup.settings.splitVersions = true)
    (captured : version ∈ streams.versionsOf module) : PlacesEnums w streams module (some version)
  | inline {version} (inline : w.setup.settings.splitVersions = false)
    (hasTypes : w.HasTypes streams module)
    (hasEnums : w.HasDirectory (w.setup.settings.sdk.enums.join module) version)
    (notIndex : version ≠ indexStem) : PlacesEnums w streams module (some version)

section Places
variable {w : Workplace} {streams : Streams} {module : String} {version : Option String}
  {types : TypesPlan} {found : ScopeTypes}

theorem mem_modules_iff (hdrawn : types.Drawn w.setup w.ready) :
    module ∈ types.modules ↔ w.HasTypes types.streams module := by
  obtain ⟨enums, hlist, hmodules⟩ := hdrawn
  rw [hmodules, mem_modulesOfTypes, mem_directoryNames]
  refine or_congr_right ⟨fun hmem => ?_, fun ⟨entries, hentries, hmem⟩ => ?_⟩
  · rcases hlist with hlist | ⟨-, rfl⟩
    · exact ⟨enums, hlist, hmem⟩
    · cases hmem
  · rcases hlist with hlist | ⟨hmissing, -⟩
    · rwa [Except.ok.inj (hlist.symm.trans hentries)]
    · rw [hmissing] at hentries
      cases hentries

theorem hasTypes_of_mem_versionsOf {version : String} (h : version ∈ streams.versionsOf module) :
    w.HasTypes streams module := by
  obtain ⟨direction, types, htypes, -⟩ := Streams.mem_versionsOf.1 h
  have hmentions : mentions (streams.stream direction) module :=
    .inl (Std.ExtTreeMap.mem_keys.2 (Std.ExtTreeMap.mem_iff_isSome_getElem?.2
      (Option.isSome_of_eq_some htypes)))
  cases direction with
  | inputs => exact .inl (.inl hmentions)
  | outputs => exact .inl (.inr hmentions)

theorem PlacesEnums.hasTypes (h : w.PlacesEnums streams module version) :
    w.HasTypes streams module := by
  cases h with
  | module hasTypes => exact hasTypes
  | version split captured => exact hasTypes_of_mem_versionsOf captured
  | inline inline hasTypes => exact hasTypes

theorem PlacesEnums.mem_scopesOf (h : w.PlacesEnums streams module version) :
    w.typesVersion version ∈ streams.scopesOf module := by
  unfold typesVersion Streams.scopesOf
  cases h with
  | module =>
    rw [ite_self]
    exact List.mem_cons_self
  | version split captured =>
    rw [if_pos split]
    exact List.mem_cons_of_mem _ (List.mem_map_of_mem captured)
  | inline inline =>
    rw [inline]
    exact List.mem_cons_self

theorem PlacesEnums.exists_enumsFile (h : w.PlacesEnums streams module version) (fresh : w.Fresh)
    (hfound : w.OfScope streams module (w.typesVersion version) found) {loc : Location} {entry : Entry}
    (hsource : w.ready.entry (enumsSource w.setup.settings.sdk module version) = .ok (loc, entry)) :
    ∃ source path names text,
      w.ready.readText (enumsSource w.setup.settings.sdk module version) = .ok source ∧
      EnumsText source version text ∧
      found.EnumsFile w.setup.settings.extension path names text ∧
      ∀ name, (w.fileContext module version name).enumsPath version =
        (w.fileContext module version name).typesPath ++ "/" ++ path := by
  cases h with
  | module hasTypes =>
    have hversion : w.typesVersion none = none := ite_self _
    rw [hversion] at hfound
    obtain ⟨source, hread, hown⟩ := (OfModule.enums hfound).of_fresh fresh hsource
    cases hshared : found.versionEnums.isEmpty with
    | true => exact ⟨source, _, _, _, hread, @EnumsText.module source [], .file hshared hown,
        fun _ => rfl⟩
    | false =>
      refine ⟨source, _, _, _, hread, ?_, .index hshared, fun _ => rfl⟩
      rw [hown]
      exact .module
  | @version version split captured =>
    have hversion : w.typesVersion (some version) = some version := if_pos split
    rw [hversion] at hfound
    obtain ⟨found', hfinds, hown⟩ := OfVersion.enums hfound
    obtain ⟨source, hread, rfl⟩ := hfinds.of_fresh fresh hsource
    have hsingle : found.versionEnums.isEmpty = true := by
      rw [OfVersion.versionEnums hfound]
      exact Std.ExtTreeMap.isEmpty_empty
    refine ⟨source, _, _, _, hread, .version, .file hsingle hown, fun name => ?_⟩
    have hscope := @fileContext_scope w module name (some version)
    unfold Context.enumsPath
    rw [hscope, hversion]
    rfl
  | @inline version inline hasTypes hasEnums notIndex =>
    have hversion : w.typesVersion (some version) = none := by
      unfold typesVersion
      rw [inline]
      rfl
    rw [hversion] at hfound
    obtain ⟨entries, hlist, hmem⟩ := hasEnums
    obtain ⟨found', hfinds, hget⟩ := finds_of_gathers (OfModule.inline hfound inline) fresh hlist hmem
    obtain ⟨source, hread, rfl⟩ := hfinds.of_fresh fresh hsource
    refine ⟨source, _, _, _, hread, .version, .version hget notIndex, fun name => ?_⟩
    have hscope := @fileContext_scope w module name (some version)
    unfold Context.enumsPath
    rw [hscope, hversion]
    simp only [String.append_assoc]
    rfl

end Places

section Targets
variable {w : Workplace} {module : String} {version : Option String}

theorem isLine_reexport {path : String} (h : '\n' ∉ path.toList) :
    IsLine ("export * from \"" ++ path ++ "\";") where
  nonempty := by simp
  noNewline := by
    simp only [String.toList_append, List.mem_append, not_or]
    exact ⟨⟨by decide, h⟩, by decide⟩
  noReturn := by
    have hlast : ("export * from \"" ++ path ++ "\";").toList =
        "export * from \"".toList ++ path.toList ++ ['"'] ++ [';'] := by simp
    rw [hlast, List.getLast?_concat]
    decide

theorem newline_notMem_typesPath {name : String} :
    '\n' ∉ (w.fileContext module version name).typesPath.toList := by
  have hsplit : ∀ split : Bool, '\n' ∉ ((if split then "./" else "../") ++ typesName).toList := by
    decide
  cases version with
  | none => exact hsplit true
  | some version => exact hsplit w.setup.settings.splitVersions

theorem HasFile.extension {stem extension text : String}
    (h : w.HasFile module version (fileName stem extension) text) : '/' ∉ extension.toList := by
  obtain ⟨bytes, hbytes⟩ := h.has.mem_children
  have hslash := (FileTree.isName_of_mem_children hbytes).noSlash
  simp only [fileName, String.toList_append, List.mem_append, not_or] at hslash
  exact hslash.2

end Targets

section Staged
variable {w : Workplace} {plan : Plan} {order : List WorkUnit} {outcomes : List Outcome}
  {after : Disk}
  {module name text : String} {version : Option String} {types : TypesPlan} {loc : Location}
  {entry : Entry} {climbs : Nat}

theorem Staged.exists_target (h : w.Staged plan plan.units outcomes after) (tidy : w.Tidy)
    (fresh : w.Fresh)
    (hok : (plan.report outcomes).failures = []) (hplan : plan.types = .ok types)
    (hdir : after.tree.find? (w.packageDir module version) = some .directory)
    (hsource : w.ready.entry (enumsSource w.setup.settings.sdk module version) = .ok (loc, entry))
    (hplaces : w.PlacesEnums types.streams module version) : ∃ source enums target,
      w.ready.readText (enumsSource w.setup.settings.sdk module version) = .ok source ∧
      EnumsText source version enums ∧
      (w.typesDone plan).tree.find? target = some (.file enums.toUTF8) ∧
      Imported after (w.packageDir module version) w.setup.settings.extension
        ((w.fileContext module version name).enumsPath version) target enums := by
  have hmem := (mem_modules_iff (h.types types hplan).2).2 hplaces.hasTypes
  obtain ⟨found, hfound, hlaid⟩ := h.exists_laid tidy hok hplan hmem hplaces.mem_scopesOf
  have hunit := mem_typesUnits hplan hmem
  have hdone := hlaid _ (List.prefix_append _ _) hunit
  have hend := hlaid _ (List.prefix_refl _) (List.mem_append_left _ hunit)
  rw [h.run] at hend
  obtain ⟨source, path, names, enums, hread, htext, henums, hpath⟩ :=
    hplaces.exists_enumsFile fresh hfound hsource
  have htypesDir : after.tree.find? (w.typesDir module (w.typesVersion version)) =
      some .directory := FileTree.find?_dir (hend.own .index)
  have hunderway := h.underway tidy.extension
  have hlink : ∀ {loc}, w.typesDir module (w.typesVersion version) <:+ loc →
      after.tree.NoLink loc := fun hloc =>
    hunderway.standing.noLink (((List.suffix_append _ _).trans (List.suffix_cons _ _)).trans hloc)
  have hsize : 8 + 2 * (1 + maxNameBytes) ≤ maxPathBytes := by decide
  refine ⟨source, enums, _, hread, htext, hdone.find?_enums henums, ?_⟩
  have himported : Imported after (w.packageDir module version) w.setup.settings.extension
      ((Files.Path.mk (w.fileContext module version name).typesPath).text ++ "/" ++ path)
      (names.reverse ++ w.typesDir module (w.typesVersion version)) enums :=
    henums.imported (hend.find?_enums henums) (leads_typesPath hdir htypesDir) short_typesPath
      hsize hlink
  exact hpath name ▸ himported

theorem mem_lines_reexport
    (hline : sharedReexport climbs module version ∈ lines text) (hname : IsEnumsName module)
    (hversion : ∀ v ∈ version, IsEnumsName v) :
    let context := w.fileContext module version (fileName indexStem w.setup.settings.extension)
    context.adapt (sharedReexport climbs module version) =
        "export * from \"" ++ context.enumsPath version ++ "\";" ∧
      "export * from \"" ++ context.enumsPath version ++ "\";" ∈
        lines (adaptSource w.setup.settings.imports context text) := by
  intro context
  have hadapt : context.adapt (sharedReexport climbs module version) =
      "export * from \"" ++ context.enumsPath version ++ "\";" :=
    adapt_sharedReexport fileContext_isEntry hname hversion
      (congrArg Scope.module fileContext_scope) fileContext_version
  have hisLine : IsLine (context.adapt (sharedReexport climbs module version)) := by
    rw [hadapt]
    exact isLine_reexport (newline_notMem_enumsPath newline_notMem_typesPath fun v hv hmem =>
      absurd ((hversion v hv).2 _ hmem) (by decide))
  exact ⟨hadapt, hadapt ▸ mem_lines_adaptSource hline keeps_sharedReexport hisLine⟩

end Staged

/-- After a build into an empty output root that had no failures, the re-export of the enums of a
scope in its entry file has a target: the path that is written in its place stands for a file that
the types pass wrote from the enum source of that scope. -/
theorem reexport_has_target {w : Workplace} {start after : Session} {result : Result}
    {plan : TypesPlan} {module text : String} {version : Option String} {climbs : Nat}
    {loc : Location} {entry : Entry} (fresh : w.Fresh) (hcore : ¬ w.Discovered coreName)
    (htypes : ∀ {module}, w.Discovered module →
      w.ready.tree.find? (typesName :: module :: w.source) ≠ some .directory)
    (hmemory : start.memory.Named)
    (hmake : w.setup.makeOutputRoot.run.run start.disk = (.ok (), w.ready))
    (hbuild : w.setup.build.run.run start = (.ok result, after))
    (hok : result.report.failures = []) (hplan : (w.plan start.memory).types = .ok plan)
    (hmodule : w.Discovered module)
    (hfile : w.HasFile module version (fileName indexStem w.setup.settings.extension) text)
    (hline : sharedReexport climbs module version ∈ lines text) (hname : IsEnumsName module)
    (hversion : ∀ v ∈ version, IsEnumsName v)
    (hsource : w.ready.entry (enumsSource w.setup.settings.sdk module version) = .ok (loc, entry))
    (hplaces : w.PlacesEnums plan.streams module version) :
    ∃ adapted path source enums target,
      after.disk.tree.find? (fileName indexStem w.setup.settings.extension ::
        w.packageDir module version) = some (.file adapted.toUTF8) ∧
      (w.fileContext module version (fileName indexStem w.setup.settings.extension)).adapt
        (sharedReexport climbs module version) = "export * from \"" ++ path ++ "\";" ∧
      "export * from \"" ++ path ++ "\";" ∈ lines adapted ∧
      Imported after.disk (w.packageDir module version) w.setup.settings.extension path target
        enums ∧
      (w.typesDone (w.plan start.memory)).tree.find? target = some (.file enums.toUTF8) ∧
      w.ready.readText (enumsSource w.setup.settings.sdk module version) = .ok source ∧
      EnumsText source version enums := by
  obtain ⟨hresult, rfl⟩ := Prod.mk.inj (hbuild.symm.trans (w.run_build hmake))
  obtain rfl := Except.ok.inj hresult
  -- the name of the entry file has no slash, so the extension has none
  have tidy : w.Tidy := ⟨hfile.extension, hcore, htypes⟩
  have hstaged := w.staged hmemory hfile.extension
  have hadapted := hstaged.find?_adapted tidy hok hmodule hfile
  obtain ⟨source, enums, target, hread, htext, hdone, himported⟩ :=
    hstaged.exists_target tidy fresh hok hplan (FileTree.find?_dir hadapted) hsource hplaces
  obtain ⟨hadapt, hlines⟩ := mem_lines_reexport hline hname hversion
  exact ⟨_, _, source, enums, target, hadapted, hadapt, hlines, himported, hdone, hread, htext⟩

section Web

theorem HasFile.of_find? {w : Workplace} {module name text : String} {version : Option String}
    (hdirectory : ∀ v ∈ version, w.ready.tree.find? (v :: module :: w.source) = some .directory)
    (hfind : w.ready.tree.find? ((scopeDir module version ++ [name]).reverse ++ w.source) =
      some (.file text.toUTF8)) : w.HasFile module version name text where
  directory := hdirectory
  has := ⟨_, hfind, by simpa [String.fromUTF8?] using ⟨text.isValidUTF8, rfl⟩⟩

/-- The enums of a module and of its version, re-exported by the entry files of `web`. -/
theorem reexport_has_target_web : ∃ result after plan,
    webPlace.setup.build.run.run { disk := diskOf webFiles } = (.ok result, after) ∧
    result.report.failures = [] ∧ (webPlace.plan {}).types = .ok plan ∧
    ∀ version ∈ [none, some "v1"], webPlace.PlacesEnums plan.streams "web" version ∧
      ∃ adapted path source enums target,
        after.disk.tree.find? ("index.ts" :: webPlace.packageDir "web" version) =
          some (.file adapted.toUTF8) ∧
        (webPlace.fileContext "web" version "index.ts").adapt
            (sharedReexport version.toList.length "web" version) = "export * from \"" ++ path ++ "\";" ∧
        "export * from \"" ++ path ++ "\";" ∈ lines adapted ∧
        Imported after.disk (webPlace.packageDir "web" version) "ts" path target enums ∧
        (webPlace.typesDone (webPlace.plan {})).tree.find? target = some (.file enums.toUTF8) ∧
        webPlace.ready.readText (enumsSource webPlace.setup.settings.sdk "web" version) =
          .ok source ∧
        EnumsText source version enums := by
  obtain ⟨result, after, hbuild, hok⟩ := exists_build_webPlace
  have hversion := captured_webPlace
  have hmodule : webPlace.Discovered "web" := ⟨by decide +kernel, by decide⟩
  cases hplan : (webPlace.plan {}).types with
  | error failure =>
    rw [hplan] at hversion
    cases hversion
  | ok plan =>
    rw [hplan] at hversion
    have hcaptured : webPlace.PlacesEnums plan.streams "web" (some "v1") :=
      .version rfl (of_decide_eq_true hversion)
    have howned : webPlace.PlacesEnums plan.streams "web" none := .module hcaptured.hasTypes
    refine ⟨_, _, plan, hbuild, hok, rfl, List.forall_mem_cons.2 ⟨⟨howned, ?_⟩,
      List.forall_mem_singleton.2 ⟨hcaptured, ?_⟩⟩⟩
    · exact @reexport_has_target webPlace { disk := diskOf webFiles } _ _ plan "web"
        ("export * from \"../types/enums/web\";\n" ++ "export type Sites = inputs.web.Site[];\n")
        none 0 ["index.ts", "web", "enums", "types", "sdk"]
        (.file "export const Kind = 1;\n".toUTF8) fresh_webPlace tidy_webPlace.core
        tidy_webPlace.types Memory.named_empty make_webPlace hbuild hok hplan hmodule
        (.of_find? nofun (by decide +kernel)) (by decide +kernel)
        (.of_all (by decide) (by decide +kernel))
        nofun (by decide +kernel) howned
    · exact @reexport_has_target webPlace { disk := diskOf webFiles } _ _ plan "web"
        ("export * from \"../../types/enums/web/v1\";\n" ++
          "export type Pages = inputs.web.v1.Page[];\n")
        (some "v1") 1 ["index.ts", "v1", "web", "enums", "types", "sdk"]
        (.file "export const Size = 2;\n".toUTF8) fresh_webPlace tidy_webPlace.core
        tidy_webPlace.types Memory.named_empty make_webPlace hbuild hok hplan hmodule
        (.of_find? (by simpa using by decide +kernel) (by decide +kernel)) (by decide +kernel)
        (.of_all (by decide) (by decide +kernel))
        (by simpa [IsEnumsName] using by decide +kernel) (by decide +kernel) hcaptured

/-- A version whose entry file has nothing but the re-export of its enums: the text of their source,
and the path that the entry file has in the package. -/
structure VersionReexport where
  module : String
  version : String
  source : String
  path : String

/-- The path stands for no file with what is written of the enum source. -/
def VersionReexport.lacksTarget (reexport : VersionReexport) (settings : Settings)
    (before after : Disk) : Bool :=
  let entry (root : String) : Location := ["index.ts", reexport.version, reexport.module, root]
  let context := settings.adapter.versionContext reexport.module reexport.version "index.ts"
  let line := sharedReexport 1 reexport.module (some reexport.version)
  let here := after.seenFrom [reexport.version, reexport.module, "packages"]
  before.tree.find? (entry "sdk") = some (.file line.toUTF8) &&
    (after.tree.find? (entry "packages")).isSome &&
    context.adapt line = "export * from \"" ++ reexport.path ++ "\";" &&
    before.readText (settings.sdk.versionEnums reexport.module reexport.version) =
      .ok reexport.source &&
    [reexport.path ++ ".ts", reexport.path ++ "/index.ts"].all fun file =>
      ((here.entry ⟨file⟩).map (·.2)).toOption !=
        some (.file (fromFirstConstant reexport.source).toUTF8)

/-- A build has no failures, and yet some re-exports have no target. -/
def losesTargets (settings : Settings) (disk : Disk) (reexports : List VersionReexport) : Bool :=
  match (setupOf settings).build.run.run { disk } with
  | (.ok result, after) => result.report.failures.isEmpty &&
      reexports.all (·.lacksTarget settings disk after.disk)
  | (.error _, _) => false

def versionsDisk (versions : List (String × String)) (enums : List (Location × String))
    (links : List (Location × Files.Path)) : Disk :=
  let entries := versions.map fun (module, version) =>
    (["index.ts", version, module, "sdk"], sharedReexport 1 module (some version))
  let disk := diskOf <| [(["input.ts", "types", "sdk"], ""), (["output.ts", "types", "sdk"], ""),
    (["index.ts", "sdk"], ""), (["utilities.ts", "sdk"], ""), (["provider.ts", "sdk"], "")] ++
    entries ++ enums
  { disk with tree := links.foldl (fun tree link => tree.plant link.1 (.link link.2)) disk.tree }

/-- A re-export loses its target when versions have types of their own and no stream has the
version; when versions stay inline and the directory of the enums, of the module or of the version,
is a link; and when a name is not one that the pattern for re-exports reads. -/
theorem losesTargets_versionsDisk :
    losesTargets webSettings
      (versionsDisk [("web", "v1")]
        [(["index.ts", "v1", "web", "enums", "types", "sdk"], "export const Size = 1;\n")] [])
      [⟨"web", "v1", "export const Size = 1;\n", "./types/enums"⟩] = true ∧
    losesTargets { webSettings with splitVersions := false }
      (versionsDisk [("net", "v1"), ("web", "v1"), ("web", "v-1")]
        [(["index.ts", "v1", "shared"], "export const Size = 1;\n"),
          (["index.ts", "v-1", "web", "enums", "types", "sdk"], "export const Size = 2;\n")]
        [(["net", "enums", "types", "sdk"], ⟨"/shared"⟩),
          (["v1", "web", "enums", "types", "sdk"], ⟨"/shared/v1"⟩)])
      [⟨"net", "v1", "export const Size = 1;\n", "../types/enums/v1"⟩,
        ⟨"web", "v1", "export const Size = 1;\n", "../types/enums/v1"⟩,
        ⟨"web", "v-1", "export const Size = 2;\n", "../../types/enums/web/v-1"⟩] = true := by
  constructor <;> decide +kernel

end Web

end Workplace

end Unbundle.Build
