import Unbundle.Proofs.Build.Scripts

/-! The types of one scope as deeds. Nothing is read while they are written, so that they are one
list of deeds on every disk: the directories, the enums, a file for each direction and the index. -/

namespace Unbundle.Types
open Std (ExtTreeMap)
open Unbundle.Files Unbundle.Build

namespace ScopeTypes

/-- A directory of enums, with a file for each version and an index of them all. -/
def enumsDirectoryDeeds (types : ScopeTypes) (root : Files.Path) (dir : List String)
    (extension : String) : List Deed :=
  .make (dir ++ [enumsName]) ::
    (types.versionEnums.toList.map fun entry =>
        .text root (dir ++ [enumsName]) (fileName entry.1 extension) entry.2) ++
      [.text root (dir ++ [enumsName]) (fileName indexStem extension)
        (enumsIndex types.enums types.versionEnums.keys)]

def enumsDeeds (types : ScopeTypes) (root : Files.Path) (dir : List String)
    (extension : String) : List Deed :=
  if types.versionEnums.isEmpty then
    match types.enums with
    | some text => [.text root dir (fileName enumsName extension) text]
    | none => []
  else types.enumsDirectoryDeeds root dir extension

def sliceDeeds (types : ScopeTypes) (root : Files.Path) (dir : List String) (extension : String)
    (direction : Direction) : List Deed :=
  match types.slice direction with
  | some slice => [.text root dir (fileName direction.stem extension) (types.sliceText slice)]
  | none => []

/-- The index and what stands before it. -/
def fileDeeds (types : ScopeTypes) (root : Files.Path) (dir : List String) (extension : String) :
    List Deed :=
  types.enumsDeeds root dir extension ++ types.sliceDeeds root dir extension .inputs ++
    types.sliceDeeds root dir extension .outputs ++
    [.text root dir (fileName indexStem extension) (Text.joinLines types.index)]

/-- All that is done for the types of a scope. -/
def deeds (types : ScopeTypes) (root : Files.Path) (scope : List String) (extension : String) :
    List Deed :=
  .make (scope ++ [typesName]) :: types.fileDeeds root (scope ++ [typesName]) extension

section Equations
variable {types : ScopeTypes} {root : Files.Path} {dir scope : List String} {extension : String}
  {direction : Direction}

theorem joins_concat (name : String) :
    root.joins (dir ++ [name]) = (root.joins dir).join name := by
  simp [Files.Path.joins]

theorem writeEnumsDirectory_eq : types.writeEnumsDirectory (root.joins dir) extension =
    perform root (types.enumsDirectoryDeeds root dir extension) := by
  have hversions : ∀ list : List (String × String),
      perform root (list.map fun entry =>
        .text root (dir ++ [enumsName]) (fileName entry.1 extension) entry.2) =
      list.forM fun entry => Work.writeText
        ((root.joins (dir ++ [enumsName])).join (fileName entry.1 extension)) entry.2 := by
    intro list
    induction list with
    | nil => rfl
    | cons entry list ih => exact congrArg (_ >>= ·) (funext fun _ => ih)
  have hmake : ∀ rest : List Deed, perform root (.make (dir ++ [enumsName]) :: rest) =
      (Work.makeDirectories (root.joins (dir ++ [enumsName])) >>= fun _ => perform root rest) :=
    fun _ => rfl
  unfold writeEnumsDirectory enumsDirectoryDeeds
  rw [← joins_concat, List.cons_append, hmake, perform_append, perform_singleton, hversions]
  rfl

theorem writeEnums_eq : types.writeEnums (root.joins dir) extension =
    perform root (types.enumsDeeds root dir extension) := by
  unfold writeEnums enumsDeeds
  cases types.versionEnums.isEmpty with
  | true =>
    simp only [Bool.not_true, Bool.false_eq_true, if_false, if_true]
    cases types.enums with
    | none => rfl
    | some text =>
      simp only [perform_singleton]
      rfl
  | false =>
    simp only [Bool.not_false, if_true, Bool.false_eq_true, if_false]
    exact writeEnumsDirectory_eq

theorem writeSlice_eq : types.writeSlice (root.joins dir) extension direction =
    perform root (types.sliceDeeds root dir extension direction) := by
  unfold writeSlice sliceDeeds
  cases types.slice direction with
  | none => rfl
  | some slice =>
    simp only [perform_singleton]
    rfl

theorem write_eq : types.write (root.joins scope) extension =
    (do
      perform root (types.deeds root scope extension)
      return ⟨typesDirectory (root.joins scope), types.inputs.isSome, types.outputs.isSome,
        types.hasEnums⟩) := by
  have hmake : ∀ rest : List Deed, perform root (.make (scope ++ [typesName]) :: rest) =
      (Work.makeDirectories (root.joins (scope ++ [typesName])) >>= fun _ => perform root rest) :=
    fun _ => rfl
  have hdirectory : typesDirectory (root.joins scope) = root.joins (scope ++ [typesName]) :=
    joins_concat typesName |>.symm
  unfold write deeds fileDeeds
  simp only [hdirectory, writeEnums_eq, writeSlice_eq, hmake, perform_append, perform_singleton,
    bind_assoc]
  rfl

end Equations

/-- The deeds that the types of a scope can be made of. -/
inductive IsDeed (root : Files.Path) (scope : List String) (extension : String) : Deed → Prop where
  | directory : IsDeed root scope extension (.make (scope ++ [typesName]))
  | enums : IsDeed root scope extension (.make (scope ++ [typesName] ++ [enumsName]))
  | file {stem text} (name : IsName stem) : IsDeed root scope extension
      (.text root (scope ++ [typesName]) (fileName stem extension) text)
  | enumsFile {stem text} (name : IsName stem) : IsDeed root scope extension
      (.text root (scope ++ [typesName] ++ [enumsName]) (fileName stem extension) text)

section Deeds
variable {types : ScopeTypes} {root : Files.Path} {dir scope : List String} {extension : String}
  {direction : Direction} {deed : Deed} {made : List (List String)}

theorem isDeed_of_mem_sliceDeeds
    (h : deed ∈ types.sliceDeeds root (scope ++ [typesName]) extension direction) :
    IsDeed root scope extension deed := by
  unfold sliceDeeds at h
  split at h
  · rw [List.mem_singleton] at h
    subst h
    exact .file (by cases direction <;> decide)
  · cases h

theorem isDeed_of_mem_enumsDeeds (htexts : Keyed types.versionEnums)
    (h : deed ∈ types.enumsDeeds root (scope ++ [typesName]) extension) :
    IsDeed root scope extension deed := by
  unfold enumsDeeds at h
  split at h
  · split at h
    · rw [List.mem_singleton] at h
      subst h
      exact .file (by decide)
    · cases h
  · rw [enumsDirectoryDeeds, List.mem_append, List.mem_cons, List.mem_map] at h
    rcases h with (rfl | ⟨entry, hentry, rfl⟩) | h
    · exact .enums
    · have hkey := ExtTreeMap.mem_toList_iff_getElem?_eq_some.1 hentry
      exact .enumsFile (htexts _ (ExtTreeMap.mem_iff_isSome_getElem?.2
        (Option.isSome_of_eq_some hkey)))
    · rw [List.mem_singleton] at h
      subst h
      exact .enumsFile (by decide)

theorem isDeed_of_mem_deeds (htexts : Keyed types.versionEnums)
    (h : deed ∈ types.deeds root scope extension) : IsDeed root scope extension deed := by
  rw [deeds, fileDeeds, List.mem_cons, List.mem_append, List.mem_append, List.mem_append] at h
  rcases h with rfl | ((henums | hinputs) | houtputs) | hindex
  · exact .directory
  · exact isDeed_of_mem_enumsDeeds htexts henums
  · exact isDeed_of_mem_sliceDeeds hinputs
  · exact isDeed_of_mem_sliceDeeds houtputs
  · rw [List.mem_singleton] at hindex
    subst hindex
    exact .file (by decide)

theorem IsDeed.named (h : IsDeed root scope extension deed) (hscope : ∀ name ∈ scope, IsName name)
    (hextension : '/' ∉ extension.toList) : deed.Named := by
  have hdir : ∀ name ∈ scope ++ [typesName], IsName name := by
    simpa [or_imp, forall_and] using And.intro hscope isName_typesName
  have henums : ∀ name ∈ scope ++ [typesName] ++ [enumsName], IsName name := by
    simpa [or_imp, forall_and] using ⟨hscope, isName_typesName, isName_enumsName⟩
  cases h with
  | directory => exact ⟨by simp, hdir⟩
  | enums => exact ⟨by simp, henums⟩
  | file name => exact ⟨hdir, isName_fileName name hextension⟩
  | enumsFile name => exact ⟨henums, isName_fileName name hextension⟩

theorem founded_sliceDeeds (h : dir ∈ made) :
    Founded made (types.sliceDeeds root dir extension direction) := by
  unfold sliceDeeds
  split
  · exact ⟨h, trivial⟩
  · trivial

theorem founded_enumsDeeds (h : dir ∈ made) :
    Founded made (types.enumsDeeds root dir extension) := by
  unfold enumsDeeds
  split
  · split
    · exact ⟨h, trivial⟩
    · trivial
  · refine ⟨trivial, founded_of_forall fun deed hdeed => ?_⟩
    rcases List.mem_append.1 hdeed with hversion | hindex
    · obtain ⟨entry, -, rfl⟩ := List.mem_map.1 hversion
      exact List.mem_cons_self
    · rw [List.mem_singleton] at hindex
      subst hindex
      exact List.mem_cons_self

theorem founded_fileDeeds (h : dir ∈ made) :
    Founded made (types.fileDeeds root dir extension) := by
  have hmore : ∀ more : List (List String), dir ∈ more ++ made := fun _ =>
    List.mem_append_right _ h
  unfold fileDeeds
  rw [founded_append, founded_append, founded_append]
  exact ⟨⟨⟨founded_enumsDeeds h, founded_sliceDeeds (hmore _)⟩, founded_sliceDeeds (hmore _)⟩,
    hmore _, trivial⟩

theorem founded_deeds : Founded made (types.deeds root scope extension) :=
  ⟨trivial, founded_fileDeeds List.mem_cons_self⟩

end Deeds

end ScopeTypes

end Unbundle.Types
