import Unbundle.Proofs.Build.TypesIndex
import Unbundle.Proofs.Types.EnumsIndex

/-! What the import of `./enums` in a directory of types stands for. Enums are written as a file or
as a directory, and a file comes before a directory when the import is resolved. So the enums that
were just written are the ones imported, unless they are a directory and a file of that name was
left from before. -/

namespace Unbundle.Types
open Std (ExtTreeMap)
open Unbundle.Files Unbundle.Build

/-- What an import of `./name` stands for in the files of a directory: the file of this name, or
else the index of the directory of this name. -/
def importedFile (disk : Disk) (directory : Files.Path) (name extension : String) : Files.Path :=
  let file := directory.join (fileName name extension)
  if disk.isFile file then file else (directory.join name).join (fileName "index" extension)

namespace ScopeTypes

/-- The enums are a directory, and beside it stands a file of this name that was there before and
was not written. -/
def Shadowed (types : ScopeTypes) (directory : Files.Path) (extension : String)
    (opened : List Location) (disk disk' : Disk) : Prop :=
  types.versionEnums.isEmpty = false ∧ ∃ loc old, loc ∉ opened ∧
    disk'.entry (directory.join (fileName "enums" extension)) = .ok (loc, .file old) ∧
    disk.tree.find? loc = some (.file old)

def enumsPath (types : ScopeTypes) (directory : Files.Path) (extension : String) : Files.Path :=
  if types.versionEnums.isEmpty then directory.join (fileName enumsName extension)
  else (directory.join enumsName).join (fileName indexStem extension)

section Writes
variable {types : ScopeTypes} {directory scope : Files.Path} {extension : String}
  {direction : Direction} {disk disk' : Disk} {summary : TypesSummary}

theorem fills_writeSlice : Fills (types.writeSlice directory extension direction) := by
  unfold writeSlice
  split
  · exact fills_writeText
  · exact fills_pure ()

theorem exists_of_run_writeEnums (henums : types.hasEnums = true) (hhome : disk.Homed)
    (hrun : (types.writeEnums directory extension).run.run disk = (.ok (), disk')) :
    ∃ opened loc content, Filled opened disk disk' ∧ loc ∈ opened ∧
      disk'.entry (types.enumsPath directory extension) = .ok (loc, .file content) := by
  unfold writeEnums at hrun
  unfold enumsPath
  cases hshared : types.versionEnums.isEmpty with
  | false =>
    simp only [hshared, Bool.not_false, if_true, Bool.false_eq_true, if_false] at hrun ⊢
    obtain ⟨_, loc, hfilled, hopened, hentry⟩ := exists_of_run_writeEnumsDirectory hhome hrun
    exact ⟨_, loc, _, hfilled, hopened, hentry⟩
  | true =>
    simp only [hshared, Bool.not_true, Bool.false_eq_true, if_false, if_true] at hrun ⊢
    cases hown : types.enums with
    | none => simp [hasEnums, hshared, hown] at henums
    | some text =>
      rw [hown] at hrun
      obtain ⟨loc, hfilled, hentry⟩ := run_writeText hhome hrun
      exact ⟨_, loc, _, hfilled, List.mem_singleton_self loc, hentry⟩

theorem exists_of_run_write (henums : types.hasEnums = true) (hhome : disk.Homed)
    (hrun : (types.write scope extension).run.run disk = (.ok summary, disk')) :
    ∃ opened loc content, Filled opened disk disk' ∧ loc ∈ opened ∧
      disk'.entry (types.enumsPath (typesDirectory scope) extension) = .ok (loc, .file content) ∧
      disk'.readText ((typesDirectory scope).join (fileName indexStem extension)) =
        .ok (Text.joinLines types.index) := by
  unfold write at hrun
  obtain ⟨_, made, hmake, hrun⟩ := exists_of_run_bind hrun
  obtain ⟨_, enumerated, henumsRun, hrun⟩ := exists_of_run_bind hrun
  obtain ⟨_, input, hinputs, hrun⟩ := exists_of_run_bind hrun
  obtain ⟨_, output, houtputs, hrun⟩ := exists_of_run_bind hrun
  obtain ⟨_, _, hindex, hreturn⟩ := exists_of_run_bind hrun
  obtain rfl := (Prod.mk.inj hreturn).2
  obtain ⟨_, hmade⟩ := fills_makeDirectories.exists_filled hhome hmake
  have hhome₁ := hmade.homed hhome
  obtain ⟨_, loc, _, henumerated, hopened, hentry⟩ :=
    exists_of_run_writeEnums henums hhome₁ henumsRun
  have hhome₂ := henumerated.homed hhome₁
  obtain ⟨_, hinput⟩ := fills_writeSlice.exists_filled hhome₂ hinputs
  have hhome₃ := hinput.homed hhome₂
  obtain ⟨_, houtput⟩ := fills_writeSlice.exists_filled hhome₃ houtputs
  obtain ⟨_, hlast, hindexEntry⟩ := run_writeText (houtput.homed hhome₃) hindex
  have hbehind := (hinput.trans houtput).trans hlast
  obtain ⟨content, hentry⟩ := hbehind.exists_entry hentry
  exact ⟨_, loc, content, (hmade.trans henumerated).trans hbehind,
    List.mem_append_right _ (List.mem_append_left _ hopened), hentry,
    Disk.readText_of_entry hindexEntry⟩

/-- Where the enums are in an opened file, it depends on a file beside their directory alone whether
that file is the one imported. -/
theorem exists_imported {opened : List Location} {loc : Location} {content : ByteArray}
    (hfilled : Filled opened disk disk') (hopened : loc ∈ opened)
    (hentry : disk'.entry (types.enumsPath directory extension) = .ok (loc, .file content)) :
    ∃ loc content, disk'.entry (importedFile disk' directory "enums" extension) =
        .ok (loc, .file content) ∧
      (loc ∈ opened ↔ ¬ types.Shadowed directory extension opened disk disk') := by
  unfold enumsPath at hentry
  cases hshared : types.versionEnums.isEmpty with
  | true =>
    rw [if_pos hshared] at hentry
    have himported : importedFile disk' directory "enums" extension =
        directory.join (fileName enumsName extension) := if_pos (Disk.isFile_of_entry hentry)
    exact ⟨loc, content, himported ▸ hentry, by simp [Shadowed, hshared, hopened]⟩
  | false =>
    rw [if_neg (by simp [hshared])] at hentry
    by_cases hbeside : disk'.isFile (directory.join (fileName "enums" extension)) = true
    · have himported : importedFile disk' directory "enums" extension =
          directory.join (fileName "enums" extension) := if_pos hbeside
      obtain ⟨beside, left, hleft⟩ := Disk.exists_of_isFile hbeside
      refine ⟨beside, left, himported ▸ hleft, ?_⟩
      constructor
      · rintro hwritten ⟨-, shadow, old, hshadow, hold, -⟩
        obtain ⟨rfl, -⟩ := Prod.mk.inj (Except.ok.inj (hleft.symm.trans hold))
        exact hshadow hwritten
      · intro hplain
        by_contra hbefore
        exact hplain ⟨hshared, beside, left, hbefore, hleft,
          hfilled.others beside hbefore left (Disk.follow_of_entry hleft).2⟩
    · have himported : importedFile disk' directory "enums" extension =
          (directory.join enumsName).join (fileName indexStem extension) := if_neg hbeside
      refine ⟨loc, content, himported ▸ hentry, iff_of_true hopened ?_⟩
      rintro ⟨-, shadow, old, -, hold, -⟩
      exact hbeside (Disk.isFile_of_entry hold)

/-- The enums of a scope, when its types could be written. The index exports `./enums` and each
slice imports it; and this stands for a file that was written along with them if and only if the
enums are not shadowed: they are one file, or no file left from before stands beside their directory
in its place. -/
theorem write_enums_imported (types : ScopeTypes) (scope : Files.Path) (extension : String)
    (disk disk' : Disk) (summary : TypesSummary)
    (henums : types.enums.isSome = true ∨ types.versionEnums.isEmpty = false) (hhome : disk.Homed)
    (hrun : (types.write scope extension).run.run disk = (.ok summary, disk')) :
    ∃ opened loc content, disk'.written = opened ++ disk.written ∧
      disk'.readText ((scope.join "types").join (fileName "index" extension)) =
        .ok (Text.joinLines types.index) ∧
      "export * as enums from \"./enums\";" ∈ types.index ∧
      (∀ slice, types.sliceText slice =
        Text.joinLines ("import * as enums from \"./enums\";" :: slice.lines)) ∧
      disk'.entry (importedFile disk' (scope.join "types") "enums" extension) =
        .ok (loc, .file content) ∧
      (loc ∈ opened ↔ ¬ types.Shadowed (scope.join "types") extension opened disk disk') := by
  have hhas : types.hasEnums = true := by
    rcases henums with hown | hshared
    · simp [hasEnums, hown]
    · simp [hasEnums, hshared]
  obtain ⟨opened, _, _, hfilled, hopened, hentry, hread⟩ := exists_of_run_write hhas hhome hrun
  obtain ⟨loc, content, himported, hiff⟩ := exists_imported hfilled hopened hentry
  refine ⟨opened, loc, content, hfilled.written, hread, ?_, fun slice => ?_, himported, hiff⟩
  · simp [index, hhas, enumsExport]
  · have heither : (types.enums.isSome || !types.versionEnums.isEmpty) = true := hhas
    rw [sliceText_eq, if_pos heither, List.singleton_append]

end Writes

/-- The types of `web` are written where there was no `web`: the enums imported are those written.
-/
theorem write_enums_imported_web : let scope : Files.Path := ⟨"out/types/../web"⟩
    (webTypes.enums.isSome = true ∨ webTypes.versionEnums.isEmpty = false) ∧ webDisk.Homed ∧
    ∃ disk' loc content, (webTypes.write scope "ts").run.run webDisk =
        (.ok ⟨scope.join "types", true, false, true⟩, disk') ∧
      disk'.entry (importedFile disk' (scope.join "types") "enums" "ts") = .ok (loc, .file content) ∧
      loc ∈ disk'.written := by
  intro scope
  have henums : webTypes.enums.isSome = true ∨ webTypes.versionEnums.isEmpty = false :=
    .inl (by decide)
  have hhome : webDisk.Homed := webDisk.tree.root
  have hresult : ((webTypes.write scope "ts").run.run webDisk).1 =
      .ok ⟨scope.join "types", true, false, true⟩ := by decide +kernel
  have halone : ((webTypes.write scope "ts").run.run webDisk).2.isFile
      ((scope.join "types").join (fileName "enums" "ts")) = false := by decide +kernel
  refine ⟨henums, hhome, ?_⟩
  revert hresult halone
  rcases hrun : (webTypes.write scope "ts").run.run webDisk with ⟨result, disk'⟩
  rintro rfl halone
  obtain ⟨opened, loc, content, hwritten, -, -, -, himported, hiff⟩ :=
    write_enums_imported webTypes scope "ts" webDisk disk' _ henums hhome hrun
  have hplain : ¬ webTypes.Shadowed (scope.join "types") "ts" opened webDisk disk' := by
    rintro ⟨-, shadow, old, -, hold, -⟩
    rw [Disk.isFile_of_entry hold] at halone
    cases halone
  refine ⟨disk', loc, content, rfl, himported, ?_⟩
  rw [hwritten]
  exact List.mem_append_left _ (hiff.2 hplain)

def singleDisk : Disk := diskOf [(["enums.ts", "types", "web", "out"], "export const Old = 1;
")]

/-- The enums become a directory, and the file of before is imported still. -/
theorem imported_not_written_single :
    ∃ disk' loc, (webTypes.write ⟨"out/web"⟩ "ts").run.run singleDisk =
        (.ok ⟨⟨"out/web/types"⟩, true, false, true⟩, disk') ∧
      disk'.readText ⟨"out/web/types/enums/index.ts"⟩ = .ok (enumsIndex webTypes.enums ["v1"]) ∧
      disk'.entry (importedFile disk' ⟨"out/web/types"⟩ "enums" "ts") =
        .ok (loc, .file "export const Old = 1;\n".toUTF8) ∧
      loc ∉ disk'.written := by
  have hresult : ((webTypes.write ⟨"out/web"⟩ "ts").run.run singleDisk).1 =
      .ok ⟨⟨"out/web/types"⟩, true, false, true⟩ := by decide +kernel
  refine ⟨((webTypes.write ⟨"out/web"⟩ "ts").run.run singleDisk).2,
    ["enums.ts", "types", "web", "out"], Prod.ext hresult rfl, ?_, ?_, ?_⟩
  · decide +kernel
  · decide +kernel
  · decide +kernel

end ScopeTypes

end Unbundle.Types
