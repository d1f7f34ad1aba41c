import Unbundle.Proofs.Build.Opened
import Unbundle.Proofs.Build.TypesFiles
import Unbundle.Proofs.Files.Made

/-! The types of a scope, written for a path of any spelling. The index re-exports what there is and
nothing else; whatever it re-exports was written along with it, as the enums were that the slices
import; and nothing else is touched but what was missing above the directory. -/

namespace Unbundle.Types
open Std (ExtTreeMap)
open Unbundle.Files Unbundle.Build

namespace ScopeTypes

/-- A text is in a file that was opened for writing. -/
def Wrote (opened : List Location) (tree : FileTree) (loc : Location) (text : String) : Prop :=
  loc ∈ opened ∧ tree.find? loc = some (.file text.toUTF8)

/-- The index of a directory of types and the files that it stands for were written. -/
structure Supplied (types : ScopeTypes) (here : Location) (extension : String)
    (opened : List Location) (tree : FileTree) : Prop where
  index : Wrote opened tree (fileName "index" extension :: here) (Text.joinLines
    ((if types.enums.isSome || !types.versionEnums.isEmpty
        then ["export * as enums from \"./enums\";"] else []) ++
      (if types.inputs.isSome then ["export * as inputs from \"./input\";"] else []) ++
      (if types.outputs.isSome then ["export * as outputs from \"./output\";"] else [])))
  enums : ∀ text, types.versionEnums.isEmpty = true → types.enums = some text →
    Wrote opened tree (fileName "enums" extension :: here) text
  sharedEnums : types.versionEnums.isEmpty = false →
    Wrote opened tree (fileName "index" extension :: "enums" :: here)
      (enumsIndex types.enums types.versionEnums.keys)
  versionEnums : ∀ version text, types.versionEnums[version]? = some text →
    Wrote opened tree (fileName version extension :: "enums" :: here) text
  inputs : ∀ slice, types.inputs = some slice →
    Wrote opened tree (fileName "input" extension :: here) (Text.joinLines
      ((if types.enums.isSome || !types.versionEnums.isEmpty
          then ["import * as enums from \"./enums\";"] else []) ++ slice.lines))
  outputs : ∀ slice, types.outputs = some slice →
    Wrote opened tree (fileName "output" extension :: here) (Text.joinLines
      ((if types.enums.isSome || !types.versionEnums.isEmpty
          then ["import * as enums from \"./enums\";"] else []) ++ slice.lines))

section Deeds
variable {types : ScopeTypes} {root scope : Files.Path} {dir names : List String} {deed : Deed}
  {extension : String}

theorem index_eq : types.index =
    (if types.enums.isSome || !types.versionEnums.isEmpty
        then ["export * as enums from \"./enums\";"] else []) ++
      (if types.inputs.isSome then ["export * as inputs from \"./input\";"] else []) ++
      (if types.outputs.isSome then ["export * as outputs from \"./output\";"] else []) := by
  have hinput : sliceExport .inputs = "export * as inputs from \"./input\";" := by decide
  have houtput : sliceExport .outputs = "export * as outputs from \"./output\";" := by decide
  simp [index, hasEnums, slice, enumsExport, hinput, houtput]

theorem sliceText_eq (slice : Declaration.Slice) : types.sliceText slice = Text.joinLines
    ((if types.enums.isSome || !types.versionEnums.isEmpty
        then ["import * as enums from \"./enums\";"] else []) ++ slice.lines) := by
  unfold sliceText hasEnums Declaration.Slice.text
  split <;> rfl

theorem make_mem_fileDeeds (h : .make names ∈ types.fileDeeds root dir extension) :
    names = dir ++ [enumsName] := by
  have hslice : ∀ direction, .make names ∉ types.sliceDeeds root dir extension direction := by
    intro direction hmem
    unfold sliceDeeds at hmem
    split at hmem
    · cases List.mem_singleton.1 hmem
    · cases hmem
  unfold fileDeeds at h
  simp only [List.mem_append, List.mem_singleton] at h
  rcases h with ((henums | hinputs) | houtputs) | hindex
  · unfold enumsDeeds at henums
    split at henums
    · split at henums
      · cases List.mem_singleton.1 henums
      · cases henums
    · rw [enumsDirectoryDeeds, List.mem_append, List.mem_cons, List.mem_map] at henums
      rcases henums with (hmake | ⟨_, -, hversion⟩) | hindex
      · exact Deed.make.inj hmake
      · cases hversion
      · cases List.mem_singleton.1 hindex
  · exact absurd hinputs (hslice _)
  · exact absurd houtputs (hslice _)
  · cases hindex

/-- With names that have no slash in them, every deed is one in the directory of types. A version
without a name is no exception, for its file has the extension behind the dot. -/
theorem named_or_dotted_of_mem_fileDeeds (hdir : ∀ name ∈ dir, IsName name)
    (hextension : '/' ∉ extension.toList)
    (hversions : ∀ version ∈ types.versionEnums, '/' ∉ version.toList)
    (h : deed ∈ types.fileDeeds root dir extension) : deed.Named ∨ deed.Dotted := by
  have henums : ∀ name ∈ dir ++ [enumsName], IsName name := by
    simpa [or_imp, forall_and] using ⟨hdir, isName_enumsName⟩
  cases deed with
  | make names =>
    obtain rfl := make_mem_fileDeeds h
    exact .inl ⟨by simp, henums⟩
  | write blame above name content =>
    rcases write_mem_fileDeeds h with
      ⟨rfl, stem, text, htext, rfl, -⟩ | ⟨rfl, ⟨version, text, hversion, rfl, -⟩ | ⟨rfl, -⟩⟩
    · exact .inl ⟨hdir, isName_fileName htext.isName hextension⟩
    · have hslash : '/' ∉ (fileName version extension).toList := by
        have hnone := hversions version
          (ExtTreeMap.mem_iff_isSome_getElem?.2 (Option.isSome_of_eq_some hversion))
        simp [fileName, hnone, hextension]
      have hne : fileName version extension ≠ "" := by simp [fileName]
      exact (isName_or_isDots hne hslash).imp (⟨henums, ·⟩) (⟨henums, ·⟩)
    · exact .inl ⟨henums, isName_fileName (by decide) hextension⟩

theorem write_eq_perform : types.write scope extension =
    (do
      Work.makeDirectories (typesDirectory scope)
      perform (typesDirectory scope) (types.fileDeeds (typesDirectory scope) [] extension)
      return ⟨typesDirectory scope, types.inputs.isSome, types.outputs.isSome,
        types.hasEnums⟩) := by
  have hindex (directory : Files.Path) (name text : String) :
      (Deed.text directory [] name text).work directory =
        Work.writeText (directory.join name) text := rfl
  unfold write fileDeeds
  generalize typesDirectory scope = directory
  have henums : types.writeEnums directory extension =
      perform directory (types.enumsDeeds directory [] extension) :=
    @writeEnums_eq types directory [] extension
  have hslice (direction : Direction) : types.writeSlice directory extension direction =
      perform directory (types.sliceDeeds directory [] extension direction) :=
    @writeSlice_eq types directory [] extension direction
  simp only [henums, hslice, perform_append, perform_singleton, bind_assoc, hindex]

end Deeds

section Writes
variable {types : ScopeTypes} {root scope : Files.Path} {extension stem text : String}
  {here : Location} {disk made disk' : Disk} {summary : TypesSummary}

/-- The files that the deeds for a directory of types open, the latest first. -/
def opened (types : ScopeTypes) (root : Files.Path) (here : Location) (extension : String) :
    List Location :=
  ((types.fileDeeds root [] extension).flatMap (Deed.opened here)).reverse

theorem Filed.written (h : types.Filed root here [] extension made disk') :
    disk'.written = types.opened root here extension ++ made.written :=
  written_perform h.standing h.named (founded_fileDeeds List.mem_cons_self) h.there h.run

theorem Filed.marks (h : types.Filed root here [] extension made disk') :
    (Footprint.ofKind fun _ => True).Marks here made made disk' disk' := by
  have hmarks := perform_marks h.standing
    (fun deed hdeed => ⟨h.named deed hdeed, Deed.within_ofKind trivial⟩)
    (founded_fileDeeds List.mem_cons_self) h.there
  rwa [h.run] at hmarks

theorem suffix_of_mem_opened {loc : Location} (h : loc ∈ types.opened root here extension) :
    here <:+ loc := by
  obtain ⟨deed, -, hloc⟩ := List.mem_flatMap.1 (List.mem_reverse.1 h)
  cases deed with
  | make names => cases hloc
  | write blame dir name content =>
    rw [List.mem_singleton.1 hloc]
    exact List.suffix_append _ _

theorem mem_opened {dir : List String} {name : String}
    (h : .text root dir name text ∈ types.fileDeeds root [] extension) :
    (dir ++ [name]).reverse ++ here ∈ types.opened root here extension := mem_opened_of_mem h

theorem Filed.wrote_own (h : types.Filed root here [] extension made disk')
    (htext : types.OwnText stem text) :
    Wrote (types.opened root here extension) disk'.tree (fileName stem extension :: here) text := by
  have hmem : .text root [] (fileName stem extension) text ∈ types.fileDeeds root [] extension :=
    htext.mem_fileDeeds
  exact ⟨mem_opened hmem, h.own htext⟩

theorem Filed.supplied (h : types.Filed root here [] extension made disk')
    (hversions : ∀ version ∈ types.versionEnums, version ≠ "index") :
    types.Supplied here extension (types.opened root here extension) disk'.tree where
  index := by
    rw [← index_eq]
    exact h.wrote_own .index
  enums text single own := h.wrote_own (.enums single own)
  sharedEnums hshared := by
    have hmem : .text root [enumsName] (fileName indexStem extension)
        (enumsIndex types.enums types.versionEnums.keys) ∈ types.fileDeeds root [] extension := by
      obtain ⟨before, hdeeds⟩ := @exists_fileDeeds_eq types root [] extension hshared
      rw [hdeeds]
      exact List.mem_append_right _ List.mem_cons_self
    exact ⟨mem_opened hmem, h.sharedIndex hshared⟩
  versionEnums version text hversion := by
    have hmem : .text root [enumsName] (fileName version extension) text ∈
        types.fileDeeds root [] extension := version_mem_fileDeeds hversion
    have hne : version ≠ indexStem := hversions version
      (ExtTreeMap.mem_iff_isSome_getElem?.2 (Option.isSome_of_eq_some hversion))
    exact ⟨mem_opened hmem, h.shared hversion hne⟩
  inputs slice hslice := by
    have htext : types.OwnText Direction.inputs.stem (types.sliceText slice) := .slice hslice
    rw [← sliceText_eq]
    exact h.wrote_own htext
  outputs slice hslice := by
    have htext : types.OwnText Direction.outputs.stem (types.sliceText slice) := .slice hslice
    rw [← sliceText_eq]
    exact h.wrote_own htext

theorem exists_filed_of_write (hextension : '/' ∉ extension.toList)
    (hversions : ∀ version ∈ types.versionEnums, '/' ∉ version.toList)
    (hlinks : ∀ loc, disk.tree.NoLink loc)
    (hrun : (types.write scope extension).run.run disk = (.ok summary, disk')) :
    ∃ here made, made.entry (typesDirectory scope) = .ok (here, .directory) ∧
      Made (typesDirectory scope :: (typesDirectory scope).ancestors) disk made ∧
      types.Filed (typesDirectory scope) here [] extension made disk' := by
  have hempty : (typesDirectory scope).isEmpty = false :=
    Path.isEmpty_eq_false (by simp [typesDirectory, Path.steps_join isName_typesName])
  rw [write_eq_perform] at hrun
  obtain ⟨_, made, hmake, hrun⟩ := exists_of_run_bind hrun
  obtain ⟨_, _, hperform, hreturn⟩ := exists_of_run_bind hrun
  obtain rfl := (Prod.mk.inj hreturn).2
  have hmake : (DiskM.makeDirectories (typesDirectory scope)).run.run disk = (.ok (), made) :=
    run_of_run_adapt hmake
  obtain ⟨here, hentry⟩ :=
    Disk.exists_of_isDirectory (DiskM.ensures_makeDirectories hempty disk made hmake)
  have hmade : Made (typesDirectory scope :: (typesDirectory scope).ancestors) disk made := by
    have hmakes := @DiskM.makes_makeDirectories (typesDirectory scope) disk
    rwa [hmake] at hmakes
  have hstanding : Standing (typesDirectory scope) here made :=
    ⟨Path.leads_of_entry_directory hentry, fun _ => hmade.noLink (hlinks _)⟩
  have hthere : made.tree.Has here [[]] :=
    List.forall_mem_singleton.2 (Disk.follow_of_entry hentry).2
  have hnamed := named_of_perform hstanding
    (fun deed hdeed => named_or_dotted_of_mem_fileDeeds (by simp) hextension hversions hdeed)
    (founded_fileDeeds List.mem_cons_self) hthere hperform
  exact ⟨here, made, hentry, hmade, hstanding, hthere, hnamed, hperform⟩

/-- The types of a scope, when they could be written. The index exports the enums if there are any,
of the scope or of a version, and each direction that has a slice, and nothing else. All that it
exports was written with it: the enums as one file, or as a directory with an index and a file for
each version; and each slice, which imports the enums where they are exported. Nothing else has
changed than that directories are there which were missing above, each of them named by a path that
the directory's own goes through. -/
theorem write_supplies (types : ScopeTypes) (scope : Files.Path) (extension : String)
    (disk disk' : Disk) (summary : TypesSummary) (hextension : '/' ∉ extension.toList)
    (hversions : ∀ version ∈ types.versionEnums, '/' ∉ version.toList ∧ version ≠ "index")
    (hlinks : ∀ loc target, disk.tree.find? loc ≠ some (.link target))
    (hrun : (types.write scope extension).run.run disk = (.ok summary, disk')) :
    ∃ here opened, disk'.entry (scope.join "types") = .ok (here, .directory) ∧
      disk'.written = opened ++ disk.written ∧ (∀ loc ∈ opened, here <:+ loc) ∧
      types.Supplied here extension opened disk'.tree ∧
      ∀ loc, disk'.tree.find? loc = disk.tree.find? loc ∨ here <:+ loc ∨
        (disk.tree.find? loc = none ∧ disk'.tree.find? loc = some .directory ∧
          ∃ parent ∈ (scope.join "types").ancestors,
            disk'.entry parent = .ok (loc, .directory)) := by
  obtain ⟨here, made, hentry, hmade, hfiled⟩ := exists_filed_of_write hextension
    (fun version hversion => (hversions version hversion).1) hlinks hrun
  have hmarks := hfiled.marks
  have hentry' : disk'.entry (typesDirectory scope) = .ok (here, .directory) :=
    Disk.entry_directory_of_keeps hentry hmarks.home hmarks.keeps
  refine ⟨here, types.opened (typesDirectory scope) here extension, hentry', ?_,
    fun _ => suffix_of_mem_opened,
    hfiled.supplied fun version hversion => (hversions version hversion).2, fun loc => ?_⟩
  · rw [hfiled.written, hmade.written]
  · by_cases hloc : here <:+ loc
    · exact .inr (.inl hloc)
    · have hsame := hmarks.find?_of_not_suffix hloc
      rcases hmade.tree loc with hkept | ⟨hnone, hdirectory, path, hpath, hnamed⟩
      · exact .inl (hsame.trans hkept)
      · have hnamed' := Disk.entry_directory_of_keeps hnamed hmarks.home hmarks.keeps
        rcases List.mem_cons.1 hpath with rfl | hparent
        · rw [hentry'] at hnamed'
          obtain ⟨rfl, -⟩ := Prod.mk.inj (Except.ok.inj hnamed')
          exact absurd (List.suffix_refl _) hloc
        · exact .inr (.inr ⟨hnone, hsame.trans hdirectory, path, hparent, hnamed'⟩)

end Writes

/-- Types of `web` with enums of its own, those of a version and a slice of one direction. -/
def webTypes : ScopeTypes where
  inputs := some ⟨["// generated", "export interface Site \x7b\x7d"]⟩
  enums := some "export const Kind = 1;\n"
  versionEnums := (∅ : ExtTreeMap String String).insert "v1" "export const Size = 2;\n"

/-- A disk on which `out` has other files, and no `web`. -/
def webDisk : Disk := diskOf [(["index.ts", "types", "out"], "other"), (["note", "out"], "kept")]

/-- The types of `web` are written where there was no `web`, on the way through another directory.
-/
theorem write_supplies_web : let scope : Files.Path := ⟨"out/types/../web"⟩
    ∃ disk', (webTypes.write scope "ts").run.run webDisk =
        (.ok ⟨scope.join "types", true, false, true⟩, disk') ∧
      ∃ here opened, disk'.entry (scope.join "types") = .ok (here, .directory) ∧
        disk'.written = opened ++ webDisk.written ∧ webTypes.Supplied here "ts" opened disk'.tree := by
  intro scope
  have hresult : ((webTypes.write scope "ts").run.run webDisk).1 =
      .ok ⟨scope.join "types", true, false, true⟩ := by decide +kernel
  have hversions : ∀ version ∈ webTypes.versionEnums,
      '/' ∉ version.toList ∧ version ≠ "index" := by
    intro version hversion
    have hcompare : compare "v1" version = .eq := by simpa [webTypes, eq_comm] using hversion
    obtain rfl := Std.LawfulEqOrd.eq_of_compare hcompare
    decide
  have hlinks : ∀ loc target, webDisk.tree.find? loc ≠ some (.link target) := by
    intro loc target hlink
    have hall := @entry_of_all webDisk.tree (fun _ entry => !isLink entry) (by decide +kernel) _ _
      hlink
    cases hall
  revert hresult
  rcases hrun : (webTypes.write scope "ts").run.run webDisk with ⟨result, disk'⟩
  rintro rfl
  obtain ⟨here, opened, hentry, hwritten, -, hsupplied, -⟩ := write_supplies webTypes scope "ts"
    webDisk disk' _ (by decide) hversions hlinks hrun
  exact ⟨disk', rfl, here, opened, hentry, hwritten, hsupplied⟩

end ScopeTypes

end Unbundle.Types
