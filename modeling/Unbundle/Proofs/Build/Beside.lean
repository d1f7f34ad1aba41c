import Unbundle.Proofs.Build.Delivered
import Unbundle.Proofs.Files.Relative

/-! What an implementation file has beside it. The path to its `types` leads from its own directory
to the types of its scope, and after a build without failures the files of these types are there, as
they were once all types were written. -/

namespace Unbundle.Types
open Unbundle.Files Unbundle.Build

namespace ScopeTypes

/-- The files of a scope's types are in a directory of a tree. -/
structure Laid (types : ScopeTypes) (dir : Location) (extension : String) (tree : FileTree) :
    Prop where
  own : ∀ {stem text}, types.OwnText stem text →
    tree.find? (fileName stem extension :: dir) = some (.file text.toUTF8)
  shared : ∀ {version text}, types.versionEnums[version]? = some text → version ≠ indexStem →
    tree.find? (fileName version extension :: enumsName :: dir) = some (.file text.toUTF8)
  sharedIndex : types.versionEnums.isEmpty = false →
    tree.find? (fileName indexStem extension :: enumsName :: dir) =
      some (.file (enumsIndex types.enums types.versionEnums.keys).toUTF8)

section Laid
variable {types : ScopeTypes} {root : Files.Path} {base : Location} {scope : List String}
  {extension stem text : String} {d d' : Disk} {tree : FileTree}

theorem Written.laid (h : types.Written root base scope extension d d')
    (hkeyed : Keyed types.versionEnums)
    (hstays : ∀ names content, Workplace.TypesFile extension scope names →
      d'.tree.find? (names.reverse ++ base) = some (.file content) →
      tree.find? (names.reverse ++ base) = some (.file content)) :
    types.Laid (typesName :: (scope.reverse ++ base)) extension tree where
  own htext := by
    simpa using hstays _ _ (.own htext.isName) (h.own htext)
  shared {version text} htext hne := by
    have hname : IsName version := hkeyed version
      (Std.ExtTreeMap.mem_iff_isSome_getElem?.2 (Option.isSome_of_eq_some htext))
    simpa using hstays _ _ (.enums hname) (h.shared htext hne)
  sharedIndex hshared := by
    have hname : IsName indexStem := by decide
    simpa using hstays _ _ (.enums hname) (h.sharedIndex hshared)

end Laid

end ScopeTypes

end Unbundle.Types

namespace Unbundle.Build
open Unbundle.Files Unbundle.Types Unbundle.Implementation

namespace Workplace

/-- The version whose types a file goes by: none where versions stay inline. -/
def typesVersion (w : Workplace) (version : Option String) : Option String :=
  if w.setup.settings.splitVersions then version else none

def packageDir (w : Workplace) (module : String) (version : Option String) : Location :=
  (scopeDir module version).reverse ++ w.output

def typesDir (w : Workplace) (module : String) (version : Option String) : Location :=
  typesName :: w.packageDir module version

/-- The disk when all types are written and no package is made yet. -/
def typesDone (w : Workplace) (plan : Plan) : Disk :=
  ((w.setup.runUnits plan.types (planned plan.typesUnits)).run w.ready).2

section Context
variable {w : Workplace} {module name : String} {version : Option String} {disk : Disk}

theorem fileContext_scope :
    (w.fileContext module version name).scope = ⟨module, w.typesVersion version⟩ := by
  cases version with
  | none =>
    have hversion : w.typesVersion none = none := ite_self _
    rw [hversion]
    rfl
  | some version => rfl

theorem fileContext_version : (w.fileContext module version name).version = version := by
  cases version <;> rfl

theorem fileContext_isEntry :
    (w.fileContext module version (fileName indexStem w.setup.settings.extension)).isEntry = true := by
  cases version <;> exact beq_self_eq_true _

theorem exists_typesPath (w : Workplace) (module name : String) (version : Option String) :
    ∃ base : Files.Path, Files.Path.mk (w.fileContext module version name).typesPath =
      base.join typesName ∧ base.Short 2 ∧
      ∀ {tree : FileTree}, tree.find? (w.packageDir module version) = some .directory →
        base.Leads [tree] (w.packageDir module version)
          (w.packageDir module (w.typesVersion version)) [] := by
  have hhere : (Files.Path.mk ".").Short 2 := ⟨by decide, by decide, by decide, by decide⟩
  have hup : (Files.Path.mk "..").Short 2 := ⟨by decide, by decide, by decide, by decide⟩
  cases version with
  | none =>
    refine ⟨_, rfl, hhere, fun hdir => ?_⟩
    have hversion : w.typesVersion none = none := ite_self _
    rw [hversion]
    exact Path.leads_here hdir
  | some version =>
    unfold typesVersion
    cases hsplit : w.setup.settings.splitVersions with
    | true =>
      refine ⟨⟨"."⟩, ?_, hhere, fun hdir => Path.leads_here hdir⟩
      simp only [fileContext, Adapter.versionContext, Settings.adapter, hsplit]
      rfl
    | false =>
      refine ⟨⟨".."⟩, ?_, hup, fun hdir => Path.leads_up hdir⟩
      simp only [fileContext, Adapter.versionContext, Settings.adapter, hsplit]
      rfl

theorem leads_typesPath {tree : FileTree}
    (hdir : tree.find? (w.packageDir module version) = some .directory)
    (htypes : tree.find? (w.typesDir module (w.typesVersion version)) = some .directory) :
    (Files.Path.mk (w.fileContext module version name).typesPath).Leads [tree]
      (w.packageDir module version) (w.typesDir module (w.typesVersion version)) [] := by
  obtain ⟨base, heq, -, hleads⟩ := w.exists_typesPath module name version
  rw [heq]
  exact (hleads hdir).enter_join isName_typesName htypes

theorem short_typesPath : (Files.Path.mk (w.fileContext module version name).typesPath).Short 8 := by
  have hsplit : ∀ split : Bool, (Files.Path.mk ((if split then "./" else "../") ++ typesName)).Short 8 :=
    fun split => by cases split <;> exact ⟨by decide, by decide, by decide, by decide⟩
  cases version with
  | none => exact hsplit true
  | some version => exact hsplit w.setup.settings.splitVersions

end Context

section Staged
variable {w : Workplace} {plan : Plan} {order : List WorkUnit} {outcomes : List Outcome}
  {after : Disk}
  {module name text : String} {version : Option String} {types : TypesPlan}

theorem mem_typesUnits (hplan : plan.types = .ok types) (hmodule : module ∈ types.modules) :
    .types module ∈ planned plan.typesUnits := by
  unfold Plan.typesUnits
  rw [hplan]
  exact List.mem_map_of_mem hmodule

theorem foot_of_typesFile {names : List String} (hplan : plan.types = .ok types)
    (hversion : version ∈ types.streams.scopesOf module)
    (h : TypesFile w.setup.settings.extension (scopeDir module version) names) :
    (w.foot plan.types (.types module)).files names := by
  have hdeed : ∃ blame dir name content, ScopeTypes.IsDeed w.setup.settings.outputRoot
      (scopeDir module version) w.setup.settings.extension (.write blame dir name content) ∧
      names = dir ++ [name] := by
    cases h with
    | own hname => exact ⟨_, _, _, "".toUTF8, .file hname, rfl⟩
    | enums hname => exact ⟨_, _, _, "".toUTF8, .enumsFile hname, rfl⟩
  obtain ⟨blame, dir, name, content, hdeed, heq⟩ := hdeed
  exact ⟨blame, dir, name, content, ⟨types, hplan, version, hversion, hdeed⟩, heq⟩

theorem OfScope.keyed {found : ScopeTypes} (h : w.OfScope types.streams module version found) :
    Keyed found.versionEnums := by
  cases version with
  | none => exact OfModule.keyed h
  | some version =>
    have hnone : found.versionEnums = ∅ := OfVersion.versionEnums h
    rw [hnone]
    exact .empty

/-- After a build without failures the types of each scope are laid, and they were so from when the
unit of their module was run. -/
theorem Staged.exists_laid (h : w.Staged plan order outcomes after) (tidy : w.Tidy)
    (hok : (plan.report outcomes).failures = []) (hplan : plan.types = .ok types)
    (hmodule : module ∈ types.modules) (hversion : version ∈ types.streams.scopesOf module) :
    ∃ found, w.OfScope types.streams module version found ∧
      ∀ done, done <+: order → .types module ∈ done →
        found.Laid (w.typesDir module version) w.setup.settings.extension
          ((w.setup.runUnits plan.types done).run w.ready).2.tree := by
  have hnamed := (h.types types hplan).1
  obtain ⟨d, hd, hunitOk, hfiles⟩ := h.exists_run tidy hok
    (List.mem_append_left _ (mem_typesUnits hplan hmodule))
  obtain ⟨found, d₁, d₂, hfound, hwritten, hstays⟩ := types_of_failures hplan tidy.extension
    hnamed.streams (hnamed.modules module hmodule) hd hunitOk hversion
  refine ⟨found, hfound, fun done hdone hmem => ?_⟩
  exact hwritten.laid hfound.keyed fun names content hnames hfile => hfiles done hdone hmem names
    content (foot_of_typesFile hplan hversion hnames) (hstays names content hnames hfile)

theorem Staged.find?_adapted (h : w.Staged plan order outcomes after) (tidy : w.Tidy)
    (hok : (plan.report outcomes).failures = []) (hmodule : w.Discovered module)
    (hfile : w.HasFile module version name text) :
    after.tree.find? (name :: w.packageDir module version) = some (.file
      (adaptSource w.setup.settings.imports (w.fileContext module version name) text).toUTF8) := by
  obtain ⟨modules, hmodules⟩ := (failures_of_report hok).2.1
  have hunit : .implementation module ∈ plan.units := by
    refine List.mem_append_right _ ?_
    unfold Plan.implementationUnits
    rw [hmodules]
    exact List.mem_cons_of_mem _
      (List.mem_map_of_mem (((h.modules modules hmodules).2 module).2 hmodule))
  obtain ⟨d, hd, hunitOk, hfiles⟩ := h.exists_run tidy hok hunit
  have hfind := hfiles order (List.prefix_refl _) (h.perm.mem_iff.2 hunit) _ _ hfile.foot
    (implementation_of_failures hmodule hd hunitOk hfile)
  rw [h.run] at hfind
  simpa [packageDir] using hfind

end Staged

end Workplace

end Unbundle.Build
