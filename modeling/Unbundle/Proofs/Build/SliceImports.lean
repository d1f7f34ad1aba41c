import Unbundle.Proofs.Build.EnumTargets
import Unbundle.Proofs.Build.SlashedExtension
import Unbundle.Proofs.Build.TypesIndex

/-! The import of `types`. An implementation file that refers to its scope's own types imports them
from the directory that the types pass has written for this scope, where the index leads on to the
slice that the stream has for it. -/

namespace Unbundle.Types
open Unbundle.Files Unbundle.Text Unbundle.Declaration

namespace ScopeTypes

/-- The line of an index for a slice, and the stem of the file that the line leads to. -/
def served : Direction → String × String
  | .inputs => ("export * as inputs from \"./input\";", "input")
  | .outputs => ("export * as outputs from \"./output\";", "output")

/-- In a directory of types the index exports a slice, and the file that it exports has the lines of
the slice, below the import of the enums where the scope has some. -/
structure Serves (types : ScopeTypes) (direction : Direction) (slice : Slice) (dir : Location)
    (extension : String) (tree : FileTree) : Prop where
  index : ∃ text, tree.find? (fileName "index" extension :: dir) = some (.file text.toUTF8) ∧
    (served direction).1 ∈ lines text
  rendering : tree.find? (fileName (served direction).2 extension :: dir) = some (.file
    (joinLines ((if types.enums.isSome || !types.versionEnums.isEmpty
      then ["import * as enums from \"./enums\";"] else []) ++ slice.lines)).toUTF8)

section Serves
variable {types : ScopeTypes} {direction : Direction} {slice : Slice} {dir : Location}
  {extension : String} {tree : FileTree}

theorem sliceExport_mem_lines (h : types.slice direction = some slice) :
    sliceExport direction ∈ lines (joinLines types.index) := by
  have hmem : sliceExport direction ∈ types.index := by
    refine List.mem_append_right _ (List.mem_flatMap.2 ⟨direction, ?_, ?_⟩)
    · cases direction <;> decide
    · simp [h]
  have hline : IsLine (sliceExport direction) := by cases direction <;> decide
  obtain ⟨before, after, hbefore, hafter, htext⟩ := exists_joinLines hmem
  exact hline.mem_lines hbefore hafter htext

theorem served_eq (direction : Direction) :
    served direction = (sliceExport direction, direction.stem) := by
  cases direction <;> decide

theorem Laid.serves (h : types.Laid dir extension tree)
    (hcaptured : types.slice direction = some slice) :
    types.Serves direction slice dir extension tree where
  index := ⟨_, h.own .index, by simpa [served_eq] using sliceExport_mem_lines hcaptured⟩
  rendering := by
    rw [served_eq, ← sliceText_eq]
    exact h.own (.slice hcaptured)

end Serves

end ScopeTypes

end Unbundle.Types

namespace Unbundle.Build
open Unbundle.Files Unbundle.Types Unbundle.Implementation Unbundle.Text Unbundle.Declaration
open Unbundle.Reference

namespace Streams

def sliceOf (streams : Streams) (direction : Direction) (module : String) :
    Option String → Option Slice
  | none => (streams.stream direction).modules[module]?.map (·.own)
  | some version => (streams.stream direction).modules[module]?.bind (·.versions[version]?)

section Slices
variable {streams : Streams} {direction : Direction} {module : String} {version : Option String}
  {slice : Slice}

theorem mentions_of_sliceOf (h : streams.sliceOf direction module version = some slice) :
    mentions (streams.stream direction) module := by
  have hmodule : ∃ types, (streams.stream direction).modules[module]? = some types := by
    cases version with
    | none =>
      obtain ⟨types, htypes, -⟩ := Option.map_eq_some_iff.1 h
      exact ⟨types, htypes⟩
    | some version =>
      obtain ⟨types, htypes, -⟩ := Option.bind_eq_some_iff.1 h
      exact ⟨types, htypes⟩
  obtain ⟨types, htypes⟩ := hmodule
  exact .inl (Std.ExtTreeMap.mem_keys.2 (Std.ExtTreeMap.mem_iff_isSome_getElem?.2
    (Option.isSome_of_eq_some htypes)))

theorem mem_scopesOf_of_sliceOf (h : streams.sliceOf direction module version = some slice) :
    version ∈ streams.scopesOf module := by
  cases version with
  | none => exact List.mem_cons_self
  | some version =>
    obtain ⟨types, htypes, hslice⟩ := Option.bind_eq_some_iff.1 h
    have hversion : version ∈ types.versions :=
      Std.ExtTreeMap.mem_iff_isSome_getElem?.2 (Option.isSome_of_eq_some hslice)
    exact List.mem_cons_of_mem _ (List.mem_map_of_mem
      (mem_versionsOf.2 ⟨direction, types, htypes, hversion⟩))

end Slices

end Streams

namespace Workplace

section Slices
variable {w : Workplace} {streams : Streams} {direction : Direction} {module name : String}
  {version : Option String} {found : ScopeTypes} {slice : Slice} {types : TypesPlan}

theorem OfScope.slice_eq (h : w.OfScope streams module version found) :
    found.slice direction = streams.sliceOf direction module version := by
  cases version with
  | none =>
    cases direction with
    | inputs => exact OfModule.inputs h
    | outputs => exact OfModule.outputs h
  | some version =>
    cases direction with
    | inputs => exact OfVersion.inputs h
    | outputs => exact OfVersion.outputs h

theorem mem_modules_of_sliceOf (hdrawn : types.Drawn w.setup w.ready)
    (h : types.streams.sliceOf direction module version = some slice) : module ∈ types.modules := by
  have hmentions := Streams.mentions_of_sliceOf h
  rw [mem_modules_iff hdrawn]
  cases direction with
  | inputs => exact .inl (.inl hmentions)
  | outputs => exact .inl (.inr hmentions)

end Slices

section Staged
variable {w : Workplace} {plan : Plan} {order : List WorkUnit} {outcomes : List Outcome}
  {after : Disk}
  {module name : String} {version : Option String} {types : TypesPlan} {direction : Direction}
  {slice : Slice}

theorem Staged.entry_typesPath (h : w.Staged plan order outcomes after)
    (hextension : '/' ∉ w.setup.settings.extension.toList)
    (hdir : after.tree.find? (w.packageDir module version) = some .directory)
    (htypes : after.tree.find? (w.typesDir module (w.typesVersion version)) = some .directory) :
    (after.seenFrom (w.packageDir module version)).entry
        ⟨(w.fileContext module version name).typesPath⟩ =
      .ok (w.typesDir module (w.typesVersion version), .directory) := by
  obtain ⟨base, hpath, hshort, hleads⟩ := w.exists_typesPath module name version
  have hlink : after.tree.NoLink (w.typesDir module (w.typesVersion version)) :=
    (h.underway hextension).standing.noLink
      ((List.suffix_append _ _).trans (List.suffix_cons _ _))
  have hfault : (base.join typesName).fault? = none :=
    (hshort.join (by decide)).fault? (by decide)
  rw [hpath]
  exact @Path.Leads.entry_join base (after.seenFrom (w.packageDir module version)) _ _ _
    (hleads hdir) hfault htypes hlink

/-- The types of the scope have its slice, from when the unit of the module was run to the end. -/
theorem Staged.exists_serves (h : w.Staged plan order outcomes after) (tidy : w.Tidy)
    (hok : (plan.report outcomes).failures = []) (hplan : plan.types = .ok types)
    (hslice : types.streams.sliceOf direction module version = some slice) :
    .types module ∈ order ∧ ∃ found, w.OfScope types.streams module version found ∧
      ∀ done, done <+: order → .types module ∈ done →
        found.Serves direction slice (w.typesDir module version) w.setup.settings.extension
          ((w.setup.runUnits plan.types done).run w.ready).2.tree := by
  have hmodule := mem_modules_of_sliceOf (h.types types hplan).2 hslice
  obtain ⟨found, hfound, hlaid⟩ :=
    h.exists_laid tidy hok hplan hmodule (Streams.mem_scopesOf_of_sliceOf hslice)
  have hcaptured : found.slice direction = some slice := hfound.slice_eq.trans hslice
  exact ⟨h.perm.mem_iff.2 (List.mem_append_left _ (mem_typesUnits hplan hmodule)), found, hfound,
    fun done hdone hmem => (hlaid done hdone hmem).serves hcaptured⟩

theorem isLine_typesImport : IsLine
    (namespaceImport typesNamespace (w.fileContext module version name).typesPath) where
  nonempty := by simp [namespaceImport]
  noNewline := by
    simp only [namespaceImport, String.toList_append, List.mem_append, not_or]
    exact ⟨⟨by decide, newline_notMem_typesPath⟩, by decide⟩
  noReturn := by
    have hlast : (namespaceImport typesNamespace
        (w.fileContext module version name).typesPath).toList =
        ("import * as " ++ typesNamespace ++ " from \"" ++
          (w.fileContext module version name).typesPath ++ "\"").toList ++ [';'] := by
      simp [namespaceImport]
    rw [hlast, List.getLast?_concat]
    decide

end Staged

/-- After a build into an empty output root that had no failures, an implementation file that refers
to its own scope in a direction, where the stream of this direction has the scope, has an import of
`types`. Its path names a directory of types. From when the types of the module were written, the
index there leads on to a file with the lines of the slice that the stream has for exactly this
scope. -/
theorem import_leads_to_slice {w : Workplace} {start after : Session} {result : Result}
    {stages : StateM Session (Plan × List Outcome)} {plan : TypesPlan}
    {module name text line : String} {version : Option String} {direction : Direction}
    {slice : Slice} (fresh : w.Fresh) (hcore : ¬ w.Discovered coreName)
    (htypes : ∀ {module}, w.Discovered module →
      w.ready.tree.find? (typesName :: module :: w.source) ≠ some .directory)
    (hmemory : start.memory.Named) (horder : w.setup.InOrder stages)
    (hmake : w.setup.makeOutputRoot.run.run start.disk = (.ok (), w.ready))
    (hbuild : (w.setup.buildBy stages).run.run start = (.ok result, after))
    (hok : result.report.failures = []) (hplan : (w.plan start.memory).types = .ok plan)
    (hmodule : w.Discovered module) (hfile : w.HasFile module version name text)
    (hnames : PlainNames (w.fileContext module version name).scope) (hline : line ∈ lines text)
    (hkept : w.setup.settings.imports.keeps line = true)
    (hrefers : BeginsToken
      (qualified direction.namespaceName (w.fileContext module version name).scope) line.toList)
    (hcaptured : plan.streams.sliceOf direction module (w.typesVersion version) = some slice) :
    ∃ adapted types order,
      after.disk.tree.find? (name :: w.packageDir module version) = some (.file adapted.toUTF8) ∧
      namespaceImport typesNamespace (w.fileContext module version name).typesPath ∈
        lines adapted ∧
      (after.disk.seenFrom (w.packageDir module version)).entry
          ⟨(w.fileContext module version name).typesPath⟩ =
        .ok (w.typesDir module (w.typesVersion version), .directory) ∧
      w.OfScope plan.streams module (w.typesVersion version) types ∧
      types.Serves direction slice (w.typesDir module (w.typesVersion version))
        w.setup.settings.extension after.disk.tree ∧
      order.Perm (w.plan start.memory).units ∧
      ((w.setup.runUnits (.ok plan) order).run w.ready).2 = after.disk ∧
      ∀ done, done <+: order → .types module ∈ done →
        types.Serves direction slice (w.typesDir module (w.typesVersion version))
          w.setup.settings.extension ((w.setup.runUnits (.ok plan) done).run w.ready).2.tree := by
  obtain ⟨hresult, rfl⟩ := Prod.mk.inj (hbuild.symm.trans (Setup.run_buildBy hmake))
  obtain rfl := Except.ok.inj hresult
  have hextension : '/' ∉ w.setup.settings.extension.toList := by
    cases horder with
    | planned => exact fun hslash => fresh.failures_of_slash hmemory hslash hok
    | other _ extension => exact extension
  have tidy : w.Tidy := ⟨hextension, hcore, htypes⟩
  obtain ⟨order, htakes⟩ := exists_takes w.steady_ready rfl hmemory hextension horder.orders
  have hstaged := htakes.staged rfl hmemory hextension
  obtain ⟨memory', hrun⟩ := htakes.run rfl
  rw [hrun] at hok hstaged ⊢
  have hadapted := hstaged.find?_adapted tidy hok hmodule hfile
  obtain ⟨hunit, types, hfound, hserves⟩ := hstaged.exists_serves tidy hok hplan hcaptured
  have hend := hserves order (List.prefix_refl _) hunit
  rw [hplan] at hadapted hstaged hserves hend ⊢
  have htypesDir := FileTree.find?_dir hend.rendering
  exact ⟨_, types, order, hadapted,
    namespaceImport_mem_lines (needsTypes_body hnames hline hkept hrefers) isLine_typesImport,
    hstaged.entry_typesPath hextension (FileTree.find?_dir hadapted) htypesDir, hfound, hend,
    htakes.perm, rfl, hserves⟩

section Web

theorem sliced_webPlace : (webPlace.plan {}).types.toOption.any (fun plan =>
    (plan.streams.sliceOf .inputs "web" (some "v1")).map (·.lines) =
      some ["import * as pulumi from \"@pulumi/pulumi\";"]) = true := by
  rw [types_plan]
  decide +kernel

theorem exists_mixed_webPlace : ∃ result after,
    (webPlace.setup.buildBy (webPlace.setup.runMixed List.reverse)).run.run
      { disk := diskOf webFiles } = (.ok result, after) ∧ result.report.failures = [] := by
  refine ⟨_, _, @Setup.run_buildBy _ { disk := diskOf webFiles } _ _ make_webPlace, ?_⟩
  decide +kernel

/-- The entry file of the version of `web` imports the types that its line refers to, with the units
of both stages mixed and the other way round. -/
theorem import_leads_to_slice_web :
    webPlace.setup.InOrder (webPlace.setup.runMixed List.reverse) ∧
    ∃ result after plan slice adapted types order,
    (webPlace.setup.buildBy (webPlace.setup.runMixed List.reverse)).run.run
      { disk := diskOf webFiles } = (.ok result, after) ∧
    result.report.failures = [] ∧ (webPlace.plan {}).types = .ok plan ∧
    plan.streams.sliceOf .inputs "web" (some "v1") = some slice ∧
    slice.lines = ["import * as pulumi from \"@pulumi/pulumi\";"] ∧
    after.disk.tree.find? ["index.ts", "v1", "web", "packages"] = some (.file adapted.toUTF8) ∧
    "import * as types from \"./types\";" ∈ lines adapted ∧
    (after.disk.seenFrom ["v1", "web", "packages"]).entry ⟨"./types"⟩ =
      .ok (["types", "v1", "web", "packages"], .directory) ∧
    webPlace.OfScope plan.streams "web" (some "v1") types ∧
    types.Serves .inputs slice ["types", "v1", "web", "packages"] "ts" after.disk.tree ∧
    order.Perm (webPlace.plan {}).units ∧
    ((webPlace.setup.runUnits (.ok plan) order).run webPlace.ready).2 = after.disk ∧
    ∀ done, done <+: order → .types "web" ∈ done →
      types.Serves .inputs slice ["types", "v1", "web", "packages"] "ts"
        ((webPlace.setup.runUnits (.ok plan) done).run webPlace.ready).2.tree := by
  have horder : webPlace.setup.InOrder (webPlace.setup.runMixed List.reverse) :=
    .other (.mixed List.reverse_perm) (by decide)
  obtain ⟨result, after, hbuild, hok⟩ := exists_mixed_webPlace
  have hsliced := sliced_webPlace
  have hmodule : webPlace.Discovered "web" := ⟨by decide +kernel, by decide⟩
  have hplain : PlainNames ⟨"web", some "v1"⟩ :=
    ⟨⟨by decide, by simp⟩, by simp [IsPlainName]⟩
  have hrefers : BeginsToken "inputs.web.v1.".toList
      "export type Pages = inputs.web.v1.Page[];".toList :=
    @BeginsToken.of_all _ _ "export type Pages = ".toList "Page[];".toList (by decide) (by decide)
  cases hplan : (webPlace.plan {}).types with
  | error failure =>
    rw [hplan] at hsliced
    cases hsliced
  | ok plan =>
    rw [hplan] at hsliced
    obtain ⟨slice, hslice, hlines⟩ := Option.map_eq_some_iff.1 (of_decide_eq_true hsliced)
    obtain ⟨adapted, types, order, himport⟩ := @import_leads_to_slice webPlace
      { disk := diskOf webFiles } _ _ _ plan "web" "index.ts"
      ("export * from \"../../types/enums/web/v1\";\n" ++ "export type Pages = inputs.web.v1.Page[];\n")
      "export type Pages = inputs.web.v1.Page[];" (some "v1") .inputs slice fresh_webPlace
      tidy_webPlace.core tidy_webPlace.types Memory.named_empty horder make_webPlace hbuild hok
      hplan hmodule (.of_find? (by simpa using by decide +kernel) (by decide +kernel))
      hplain (by decide +kernel) (by decide +kernel) hrefers hslice
    exact ⟨horder, result, after, plan, slice, adapted, types, order, hbuild, hok, rfl, hslice,
      hlines, himport⟩

end Web

end Workplace

end Unbundle.Build
