import Unbundle.Proofs.Build.TypesDeeds
import Unbundle.Proofs.Files.Performed

/-! The files that are there once the types of a scope are written. Each file of the scope's
directory of types has a stem of its own. In the directory that the enums of versions share, the
index is written last, over a version that is called like it. -/

namespace Unbundle.Types
open Std (ExtTreeMap)
open Unbundle.Files Unbundle.Build

namespace ScopeTypes

/-- The files of a scope's directory of types. -/
inductive OwnText (types : ScopeTypes) : (stem text : String) → Prop where
  | index : OwnText types indexStem (Text.joinLines types.index)
  | enums {text} (single : types.versionEnums.isEmpty = true) (own : types.enums = some text) :
    OwnText types enumsName text
  | slice {direction slice} (captured : types.slice direction = some slice) :
    OwnText types direction.stem (types.sliceText slice)

/-- A file of the scope's directory or of the one that the enums of its versions share, and what is
written to it. -/
def Holds (types : ScopeTypes) (scope : List String) (extension : String) (dir : List String)
    (name : String) (content : ByteArray) : Prop :=
  (dir = scope ∧ ∃ stem text, types.OwnText stem text ∧ name = fileName stem extension ∧
    content = text.toUTF8) ∨
  dir = scope ++ [enumsName] ∧
    ((∃ version text, types.versionEnums[version]? = some text ∧
      name = fileName version extension ∧ content = text.toUTF8) ∨
    name = fileName indexStem extension ∧
      content = (enumsIndex types.enums types.versionEnums.keys).toUTF8)

section Texts
variable {types : ScopeTypes} {root : Files.Path} {scope dir : List String} {extension stem : String}
  {text name : String} {blame : Files.Path} {content : ByteArray} {direction : Direction}

theorem stem_ne_indexStem : direction.stem ≠ indexStem := by cases direction <;> decide

theorem stem_ne_enumsName : direction.stem ≠ enumsName := by cases direction <;> decide

theorem stem_injective {other : Direction} (h : direction.stem = other.stem) :
    direction = other := by
  revert h
  cases direction <;> cases other <;> decide

theorem OwnText.unique {other : String} (h : types.OwnText stem text)
    (h' : types.OwnText stem other) : text = other := by
  cases h with
  | index =>
    generalize hstem : indexStem = stem at h'
    cases h' with
    | index => rfl
    | enums => exact absurd hstem (by decide)
    | slice => exact absurd hstem.symm stem_ne_indexStem
  | enums single own =>
    generalize hstem : enumsName = stem at h'
    cases h' with
    | index => exact absurd hstem (by decide)
    | enums _ own' => exact Option.some.inj (own.symm.trans own')
    | slice => exact absurd hstem.symm stem_ne_enumsName
  | @slice direction _ captured =>
    generalize hstem : direction.stem = stem at h'
    cases h' with
    | index => exact absurd hstem stem_ne_indexStem
    | enums => exact absurd hstem stem_ne_enumsName
    | slice captured' =>
      obtain rfl := stem_injective hstem
      rw [Option.some.inj (captured.symm.trans captured')]

theorem fileName_injective {other : String} (h : fileName stem extension = fileName other extension) :
    stem = other := by
  unfold fileName at h
  exact (String.append_left_inj _).1 ((String.append_left_inj _).1 h)

theorem OwnText.isName (h : types.OwnText stem text) : IsName stem := by
  cases h with
  | index => decide
  | enums => decide
  | @slice direction => cases direction <;> decide

theorem OwnText.mem_fileDeeds (h : types.OwnText stem text) :
    .text root dir (fileName stem extension) text ∈ types.fileDeeds root dir extension := by
  unfold fileDeeds
  simp only [List.mem_append, List.mem_singleton]
  cases h with
  | index => exact .inr rfl
  | enums single own =>
    refine .inl (.inl (.inl ?_))
    simp [enumsDeeds, single, own]
  | @slice direction slice captured =>
    have hmem : Deed.text root dir (fileName direction.stem extension) (types.sliceText slice) ∈
        types.sliceDeeds root dir extension direction := by
      simp [sliceDeeds, captured]
    cases direction with
    | inputs => exact .inl (.inl (.inr hmem))
    | outputs => exact .inl (.inr hmem)

theorem not_isEmpty_of_getElem? {texts : ExtTreeMap String String} {version : String}
    (h : texts[version]? = some text) : texts.isEmpty = false := by
  refine ExtTreeMap.isEmpty_eq_false_iff.2 fun hnone => ?_
  rw [hnone, ExtTreeMap.getElem?_empty] at h
  cases h

theorem version_mem_fileDeeds {version : String} (h : types.versionEnums[version]? = some text) :
    .text root (dir ++ [enumsName]) (fileName version extension) text ∈
      types.fileDeeds root dir extension := by
  unfold fileDeeds enumsDeeds enumsDirectoryDeeds
  simp only [List.mem_append, not_isEmpty_of_getElem? h, Bool.false_eq_true, if_false,
    List.mem_cons, List.mem_map]
  refine .inl (.inl (.inl (.inl (.inr ⟨(version, text), ?_, rfl⟩))))
  exact ExtTreeMap.mem_toList_iff_getElem?_eq_some.2 h

theorem exists_fileDeeds_eq (h : types.versionEnums.isEmpty = false) :
    ∃ before, types.fileDeeds root dir extension = before ++
      .text root (dir ++ [enumsName]) (fileName indexStem extension)
        (enumsIndex types.enums types.versionEnums.keys) ::
      (types.sliceDeeds root dir extension .inputs ++ types.sliceDeeds root dir extension .outputs ++
        [.text root dir (fileName indexStem extension) (Text.joinLines types.index)]) := by
  refine ⟨.make (dir ++ [enumsName]) :: types.versionEnums.toList.map fun entry =>
    .text root (dir ++ [enumsName]) (fileName entry.1 extension) entry.2, ?_⟩
  simp [fileDeeds, enumsDeeds, h, enumsDirectoryDeeds]

theorem write_mem_sliceDeeds
    (h : .write blame dir name content ∈ types.sliceDeeds root scope extension direction) :
    dir = scope ∧ ∃ stem text, types.OwnText stem text ∧ name = fileName stem extension ∧
      content = text.toUTF8 := by
  unfold sliceDeeds at h
  split at h
  · next slice captured =>
    obtain ⟨rfl, rfl, rfl, rfl⟩ := Deed.write.inj (List.mem_singleton.1 h)
    exact ⟨rfl, _, _, .slice captured, rfl, rfl⟩
  · cases h

theorem write_mem_enumsDeeds
    (h : .write blame dir name content ∈ types.enumsDeeds root scope extension) :
    types.Holds scope extension dir name content := by
  unfold enumsDeeds at h
  split at h
  · next single =>
    split at h
    · next text own =>
      obtain ⟨rfl, rfl, rfl, rfl⟩ := Deed.write.inj (List.mem_singleton.1 h)
      exact .inl ⟨rfl, _, _, .enums single own, rfl, rfl⟩
    · cases h
  · right
    rw [enumsDirectoryDeeds, List.mem_append, List.mem_cons, List.mem_map, List.mem_singleton] at h
    rcases h with (h | ⟨entry, hentry, h⟩) | h
    · cases h
    · obtain ⟨rfl, rfl, rfl, rfl⟩ := Deed.write.inj h
      exact ⟨rfl, .inl ⟨_, _, ExtTreeMap.mem_toList_iff_getElem?_eq_some.1 hentry, rfl, rfl⟩⟩
    · obtain ⟨rfl, rfl, rfl, rfl⟩ := Deed.write.inj h
      exact ⟨rfl, .inr ⟨rfl, rfl⟩⟩

theorem write_mem_fileDeeds
    (h : .write blame dir name content ∈ types.fileDeeds root scope extension) :
    types.Holds scope extension dir name content := by
  unfold fileDeeds at h
  simp only [List.mem_append, List.mem_singleton] at h
  rcases h with ((henums | hinputs) | houtputs) | hindex
  · exact write_mem_enumsDeeds henums
  · exact .inl (write_mem_sliceDeeds hinputs)
  · exact .inl (write_mem_sliceDeeds houtputs)
  · obtain ⟨rfl, rfl, rfl, rfl⟩ := Deed.write.inj hindex
    exact .inl ⟨rfl, _, _, .index, rfl, rfl⟩

end Texts

section Filed
variable {types : ScopeTypes} {root : Files.Path} {base : Location} {dir scope : List String}
  {extension stem text version : String} {d d' : Disk}

/-- The deeds for the files of a directory of types were all done. -/
structure Filed (types : ScopeTypes) (root : Files.Path) (base : Location) (dir : List String)
    (extension : String) (d d' : Disk) : Prop where
  standing : Standing root base d
  there : d.tree.Has base [dir]
  named : ∀ deed ∈ types.fileDeeds root dir extension, deed.Named
  run : (perform root (types.fileDeeds root dir extension)).run.run d = (.ok (), d')

theorem Filed.find? (h : types.Filed root base dir extension d d') {blame : Files.Path}
    {above : List String} {name : String} {content : ByteArray} {before more : List Deed}
    (hdeeds : types.fileDeeds root dir extension = before ++ more)
    (hunique : ∀ blame' dir' name' content', .write blame' dir' name' content' ∈ more →
      dir' ++ [name'] = above ++ [name] → content' = content)
    (hmem : .write blame above name content ∈ more) :
    d'.tree.find? ((above ++ [name]).reverse ++ base) = some (.file content) := by
  have hnamed := h.named
  have hfounded : Founded [dir] (types.fileDeeds root dir extension) :=
    founded_fileDeeds List.mem_cons_self
  have hrun := h.run
  rw [hdeeds] at hnamed hfounded hrun
  exact find?_perform_append h.standing hnamed hfounded h.there hrun hunique hmem

theorem Filed.own (h : types.Filed root base dir extension d d') (htext : types.OwnText stem text) :
    d'.tree.find? ((dir ++ [fileName stem extension]).reverse ++ base) =
      some (.file text.toUTF8) := by
  refine h.find? (List.nil_append _).symm (fun blame above name content hmem heq => ?_)
    htext.mem_fileDeeds
  obtain ⟨rfl, hname⟩ := List.append_inj' heq rfl
  obtain rfl := List.singleton_inj.1 hname
  rcases write_mem_fileDeeds hmem with ⟨-, other, text', htext', hname, rfl⟩ | ⟨hdir, -⟩
  · obtain rfl := fileName_injective hname
    rw [htext.unique htext']
  · simp at hdir

theorem Filed.shared (h : types.Filed root base dir extension d d')
    (htext : types.versionEnums[version]? = some text) (hne : version ≠ indexStem) :
    d'.tree.find? ((dir ++ [enumsName] ++ [fileName version extension]).reverse ++ base) =
      some (.file text.toUTF8) := by
  refine h.find? (List.nil_append _).symm (fun blame above name content hmem heq => ?_)
    (version_mem_fileDeeds htext)
  obtain ⟨rfl, hname⟩ := List.append_inj' heq rfl
  obtain rfl := List.singleton_inj.1 hname
  rcases write_mem_fileDeeds hmem with
    ⟨hdir, -⟩ | ⟨-, ⟨other, text', htext', hname, rfl⟩ | ⟨hname, -⟩⟩
  · simp at hdir
  · obtain rfl := fileName_injective hname
    rw [Option.some.inj (htext.symm.trans htext')]
  · exact absurd (fileName_injective hname) hne

theorem Filed.sharedIndex (h : types.Filed root base dir extension d d')
    (hshared : types.versionEnums.isEmpty = false) :
    d'.tree.find? ((dir ++ [enumsName] ++ [fileName indexStem extension]).reverse ++ base) =
      some (.file (enumsIndex types.enums types.versionEnums.keys).toUTF8) := by
  obtain ⟨before, hdeeds⟩ := exists_fileDeeds_eq hshared
  refine h.find? hdeeds (fun blame above name content hmem heq => ?_) List.mem_cons_self
  obtain ⟨rfl, -⟩ := List.append_inj' heq rfl
  simp only [List.mem_cons, List.mem_append, List.not_mem_nil, or_false] at hmem
  rcases hmem with hmem | (hmem | hmem) | hmem
  · exact (Deed.write.inj hmem).2.2.2
  · simpa using (write_mem_sliceDeeds hmem).1
  · simpa using (write_mem_sliceDeeds hmem).1
  · simpa using (Deed.write.inj hmem).2.1

/-- The deeds of a scope's types were all done. -/
structure Written (types : ScopeTypes) (root : Files.Path) (base : Location) (scope : List String)
    (extension : String) (d d' : Disk) : Prop where
  standing : Standing root base d
  named : ∀ deed ∈ types.deeds root scope extension, deed.Named
  run : (perform root (types.deeds root scope extension)).run.run d = (.ok (), d')

theorem Written.exists_filed (h : types.Written root base scope extension d d') :
    ∃ made, types.Filed root base (scope ++ [typesName]) extension made d' := by
  obtain ⟨hmake, hfiles⟩ := List.forall_mem_cons.1 h.named
  obtain ⟨made, hfirst, hmore⟩ := exists_of_run_perform_cons h.run
  have hnone : d.tree.Has base [] := fun _ => nofun
  obtain ⟨hmade, hhas⟩ := Deed.standing_of_run h.standing hmake trivial hnone hfirst
  exact ⟨made, hmade, hhas, hfiles, hmore⟩

theorem Written.own (h : types.Written root base scope extension d d')
    (htext : types.OwnText stem text) :
    d'.tree.find? ((scope ++ [typesName] ++ [fileName stem extension]).reverse ++ base) =
      some (.file text.toUTF8) :=
  let ⟨_, hfiled⟩ := h.exists_filed
  hfiled.own htext

theorem Written.shared (h : types.Written root base scope extension d d')
    (htext : types.versionEnums[version]? = some text) (hne : version ≠ indexStem) :
    d'.tree.find? ((scope ++ [typesName] ++ [enumsName] ++ [fileName version extension]).reverse ++
      base) = some (.file text.toUTF8) :=
  let ⟨_, hfiled⟩ := h.exists_filed
  hfiled.shared htext hne

theorem Written.sharedIndex (h : types.Written root base scope extension d d')
    (hshared : types.versionEnums.isEmpty = false) :
    d'.tree.find? ((scope ++ [typesName] ++ [enumsName] ++
      [fileName indexStem extension]).reverse ++ base) =
        some (.file (enumsIndex types.enums types.versionEnums.keys).toUTF8) :=
  let ⟨_, hfiled⟩ := h.exists_filed
  hfiled.sharedIndex hshared

end Filed

end ScopeTypes

end Unbundle.Types
