import Unbundle.Proofs.Files.Directories
import Unbundle.Proofs.Files.Ends

/-! Files written and copied, in closed form. Either a file is put where a path leads, and the disk
remembers it, or nothing changes. -/

namespace Unbundle.Files
open FileTree (Along)

section Writes
variable {disk : Disk} {path : Path} {content : ByteArray} {dir loc : Location} {name : String}

theorem Path.endsInSlash_join_piece (hne : name ≠ "") (hslash : '/' ∉ name.toList) :
    (path.join name).endsInSlash = false := by
  have hne : name.toList ≠ [] := by simpa using hne
  have hlast : name.toList.getLast? ≠ some '/' := fun hlast => hslash (List.mem_of_getLast? hlast)
  have hbehind : ∀ s : List Char, (s ++ name.toList).getLast? = name.toList.getLast? := fun s => by
    rw [List.getLast?_append, List.getLast?_eq_some_getLast hne, Option.some_or]
  unfold endsInSlash
  rcases @join_cases path name hslash with ⟨-, hjoin⟩ | ⟨s, -, hjoin⟩ | ⟨-, hjoin⟩
  · simpa [hjoin] using hlast
  · have hsplit : s ++ '/' :: name.toList = (s ++ ['/']) ++ name.toList := by simp
    rw [hjoin, hsplit, hbehind]
    simpa using hlast
  · have hsplit : path.text.toList ++ '/' :: name.toList =
        (path.text.toList ++ ['/']) ++ name.toList := by simp
    rw [hjoin, hsplit, hbehind]
    simpa using hlast

theorem Path.endsInSlash_join (h : IsName name) : (path.join name).endsInSlash = false :=
  endsInSlash_join_piece h.nonempty h.noSlash

theorem Path.route_join_piece (hne : name ≠ "") (hslash : '/' ∉ name.toList) :
    (path.join name).route = (path.join name).steps := by
  simp [route, endsInSlash_join_piece hne hslash]

theorem Path.route_join (h : IsName name) : (path.join name).route = (path.join name).steps :=
  route_join_piece h.nonempty h.noSlash

/-- Why a file cannot be written in a directory that is there, if it cannot. -/
def Path.writeFault? (path : Path) (name : String) (taken : Bool) : Option Fault :=
  match path.fault? with
  | some fault => some fault
  | none =>
    if maxNameBytes < name.utf8ByteSize then some .nameTooLong
    else if taken then some .isDirectory else none

theorem Path.Leads.follow_join (h : path.Leads [disk.tree] disk.home dir []) (hname : IsName name)
    (hlink : disk.tree.NoLink (name :: dir)) (purpose : Purpose) :
    disk.follow (path.join name) purpose (path.join name).route =
      match (path.join name).fault? with
      | some fault => .error fault
      | none => if maxNameBytes < name.utf8ByteSize then .error .nameTooLong
        else .ok (name :: dir) := by
  obtain ⟨steps, hsteps, hwalk⟩ := (h.join hname).walk
  obtain ⟨left, hwalk⟩ := hwalk disk disk.over_self
  have hroute : (path.join name).route = steps ++ [.into name] :=
    (route_join hname).trans hsteps
  rw [Disk.follow_eq, hroute]
  cases (path.join name).fault? with
  | some fault => rfl
  | none => exact (hwalk purpose _ (.inr ⟨by simp, by simp⟩)).trans (FileTree.walk_last hlink)

theorem Path.Leads.target_join (h : path.Leads [disk.tree] disk.home dir []) (hname : IsName name)
    (hlink : disk.tree.NoLink (name :: dir)) : disk.target (path.join name) =
      match (path.join name).writeFault? name (disk.tree.isDirectory (name :: dir)) with
      | some fault => .error fault
      | none => .ok (name :: dir) := by
  unfold Disk.target writeFault?
  rw [h.follow_join hname hlink]
  cases (path.join name).fault? with
  | some fault => rfl
  | none =>
    simp only
    split
    · rfl
    · cases htaken : disk.tree.isDirectory (name :: dir) <;>
        simp [bind, Except.bind, htaken]

theorem FileTree.put?_file_put? {tree emptied result : FileTree} {first : Entry}
    (h : tree.put? loc first = some emptied) (hfirst : first ≠ .directory)
    (hput : tree.put? loc (.file content) = some result) :
    emptied.put? loc (.file content) = some result := by
  cases loc with
  | nil => cases hput
  | cons name dir =>
    have hconds : tree.find? dir = some .directory ∧ tree.find? (name :: dir) ≠ some .directory ∧
        isFileName name = true := by
      by_contra hnot
      simp [put?, hnot] at hput
    have hdir : emptied.find? dir = some .directory := by
      rw [find?_put? h, if_neg (List.cons_ne_self name dir)]
      exact hconds.1
    have hfree : emptied.find? (name :: dir) ≠ some .directory := by
      rw [find?_put? h, if_pos rfl]
      simpa using hfirst
    obtain ⟨again, hagain⟩ := exists_put? (.file content) hdir hfree hconds.2.2
    rw [hagain]
    congr 1
    refine FileTree.ext fun other => ?_
    rw [find?_put? hagain, find?_put? hput, find?_put? h]
    split
    · rfl
    · rfl

theorem FileTree.put?_eq_none {tree : FileTree} {first second : Entry}
    (h : tree.put? loc first = none) : tree.put? loc second = none := by
  cases loc with
  | nil => rfl
  | cons name dir =>
    simp only [put?] at h ⊢
    split at h
    · cases h
    · next hnot => rw [dif_neg hnot]

theorem DiskM.run_openForWriting : (openForWriting path).run.run disk =
    match disk.target path with
    | .error fault => (.error fault, disk)
    | .ok loc =>
      match disk.tree.put? loc (.file ByteArray.empty) with
      | some tree => (.ok loc, { disk with tree, written := loc :: disk.written })
      | none => (.error .notFound, disk) := by
  unfold openForWriting
  rw [run_bind, run_ofDisk]
  cases disk.target path with
  | error fault => rfl
  | ok loc =>
    simp only
    rw [run_bind, run_put]
    cases disk.tree.put? loc (.file ByteArray.empty) with
    | none => rfl
    | some emptied => rfl

theorem DiskM.run_writeBytes : (writeBytes path content).run.run disk =
    match disk.target path with
    | .error fault => (.error fault, disk)
    | .ok loc =>
      match disk.tree.put? loc (.file content) with
      | some tree => (.ok (), { disk with tree, written := loc :: disk.written })
      | none => (.error .notFound, disk) := by
  unfold writeBytes
  rw [run_bind, run_openForWriting]
  cases disk.target path with
  | error fault => rfl
  | ok loc =>
    simp only
    cases hempty : disk.tree.put? loc (.file ByteArray.empty) with
    | none => rw [FileTree.put?_eq_none hempty]
    | some emptied =>
      cases hput : disk.tree.put? loc (.file content) with
      | none =>
        rw [FileTree.put?_eq_none hput] at hempty
        cases hempty
      | some result =>
        simp only [run_put, FileTree.put?_file_put? hempty (by simp) hput]

theorem Path.Leads.run_writeBytes_error (h : path.Leads [disk.tree] disk.home dir [])
    (hname : IsName name) (hlink : disk.tree.NoLink (name :: dir)) {fault : Fault}
    (hfault : (path.join name).writeFault? name (disk.tree.isDirectory (name :: dir)) =
      some fault) :
    (DiskM.writeBytes (path.join name) content).run.run disk = (.error fault, disk) := by
  rw [DiskM.run_writeBytes, h.target_join hname hlink, hfault]

theorem Path.Leads.run_writeBytes_ok (h : path.Leads [disk.tree] disk.home dir [])
    (hname : IsName name) (hlink : disk.tree.NoLink (name :: dir)) (content : ByteArray)
    (hfault : (path.join name).writeFault? name (disk.tree.isDirectory (name :: dir)) = none) :
    disk.tree.find? (name :: dir) ≠ some .directory ∧
    ∃ tree, disk.tree.put? (name :: dir) (.file content) = some tree ∧
      (DiskM.writeBytes (path.join name) content).run.run disk =
        (.ok (), { disk with tree, written := (name :: dir) :: disk.written }) := by
  have hmem : Step.into name ∈ (path.join name).steps := by simp [steps_join hname]
  have hdir : disk.tree.find? dir = some .directory := h.found _ (List.mem_singleton_self _)
  rw [DiskM.run_writeBytes, h.target_join hname hlink, hfault]
  unfold writeFault? at hfault
  split at hfault
  · cases hfault
  · next hpath =>
    split at hfault
    · cases hfault
    · next hsize =>
      have hfree : disk.tree.find? (name :: dir) ≠ some .directory := by
        simpa [FileTree.isDirectory] using hfault
      obtain ⟨tree, htree⟩ := FileTree.exists_put? (.file content) hdir hfree
        (isFileName_of_mem_steps hmem hpath hsize)
      exact ⟨hfree, tree, htree, by simp only [htree]⟩

end Writes

section Copies
variable {disk : Disk} {path source : Path} {content : ByteArray} {loc : Location}

/-- What a copy of a file holds: nothing when the file is copied onto itself. -/
def Disk.copied (disk : Disk) (path : Path) (loc : Location) (content : ByteArray) : ByteArray :=
  match disk.target path with
  | .ok copied => if copied = loc then ByteArray.empty else content
  | .error _ => content

theorem DiskM.run_copyFile (h : disk.entry source = .ok (loc, .file content)) :
    (copyFile source path).run.run disk =
      (writeBytes path (disk.copied path loc content)).run.run disk := by
  have hfind : disk.tree.find? loc = some (.file content) := (Disk.follow_of_entry h).2
  unfold copyFile
  rw [run_bind, run_ofDisk, h]
  simp only [Entry.isDirectory, reduceCtorEq, decide_false, Bool.false_eq_true, if_false]
  unfold writeBytes Disk.copied
  rw [run_bind, run_bind, run_openForWriting]
  cases disk.target path with
  | error fault => rfl
  | ok copied =>
    simp only
    cases hempty : disk.tree.put? copied (.file ByteArray.empty) with
    | none => rfl
    | some emptied =>
      have hfound : emptied.find? loc =
          some (.file (if copied = loc then ByteArray.empty else content)) := by
        rw [FileTree.find?_put? hempty]
        split
        · rfl
        · exact hfind
      simp only
      rw [run_bind, run_get]
      simp only [hfound]

theorem DiskM.run_copyFile_error {fault : Fault} (h : disk.entry source = .error fault) :
    (copyFile source path).run.run disk = (.error fault, disk) := by
  unfold copyFile
  rw [run_bind, run_ofDisk, h]

theorem DiskM.run_copyFile_directory (h : disk.entry source = .ok (loc, .directory)) :
    (copyFile source path).run.run disk = (.error .notRegularFile, disk) := by
  unfold copyFile
  rw [run_bind, run_ofDisk, h]
  rfl

end Copies

end Unbundle.Files
