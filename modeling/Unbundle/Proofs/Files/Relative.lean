import Unbundle.Proofs.Files.Contents

/-! Paths that are written relative to a directory, as the files of a package name each other. Seen
from there, such a path names what its names lead to, as long as it is not too long. Slashes behind
a path make it longer and lead nowhere else. -/

namespace Unbundle.Files

def Disk.seenFrom (disk : Disk) (dir : Location) : Disk := { disk with home := dir }

/-- A path that a name can be joined to behind a slash, of so many bytes at most. -/
structure Path.Short (path : Path) (bytes : Nat) : Prop where
  nonempty : path.text ≠ ""
  noNul : '\x00' ∉ path.text.toList
  noSlash : path.endsInSlash = false
  size : path.text.utf8ByteSize ≤ bytes

section Short
variable {path : Path} {name : String} {bytes : Nat}

theorem Path.mk_join (hname : IsName name) (hne : path.text ≠ "")
    (hslash : path.endsInSlash = false) : path.join name = ⟨path.text ++ "/" ++ name⟩ := by
  have hempty : path.isEmpty = false := by simpa [isEmpty] using hne
  unfold join
  rw [isAbsolute_mk_of_isName hname, hempty, hslash]
  rfl

theorem Path.Short.mk_join (h : path.Short bytes) (hname : IsName name) :
    path.join name = ⟨path.text ++ "/" ++ name⟩ := Path.mk_join hname h.nonempty h.noSlash

theorem Path.Short.join (h : path.Short bytes) (hname : isFileName name = true) :
    (path.join name).Short (bytes + 1 + maxNameBytes) := by
  have hisName := isName_of_isFileName hname
  simp only [isFileName, Bool.and_eq_true, Bool.not_eq_true', decide_eq_true_eq] at hname
  obtain ⟨⟨-, hnul⟩, hsize⟩ := hname
  have hslash : "/".utf8ByteSize = 1 := by decide
  have hnul' : '\x00' ∉ name.toList := by simpa using hnul
  rw [h.mk_join hisName]
  refine ⟨by simp, ?_, ?_, ?_⟩
  · simp only [String.toList_append, List.mem_append, not_or]
    exact ⟨⟨h.noNul, by decide⟩, hnul'⟩
  · rw [← h.mk_join hisName]
    exact endsInSlash_join hisName
  · have hbytes := h.size
    rw [String.utf8ByteSize_append, String.utf8ByteSize_append, hslash]
    omega

theorem Path.Short.fault? (h : path.Short bytes) (hbytes : bytes ≤ maxPathBytes) :
    path.fault? = none := by
  have hempty : path.isEmpty = false := by simpa [isEmpty] using h.nonempty
  have hnul : path.text.toList.contains '\x00' = false := by simpa using h.noNul
  have hsize := h.size
  unfold Path.fault?
  rw [hnul, hempty, if_neg (by decide), if_neg (by omega), if_neg (by decide)]

end Short

def Path.slashed (path : Path) : Nat → Path
  | 0 => path
  | n + 1 => ⟨(path.slashed n).text ++ "/"⟩

section Slashed
variable {path : Path} {n : Nat} {name : String} {grounds : List FileTree} {home dir : Location}

theorem Path.steps_slashed : (path.slashed n).steps = path.steps := by
  induction n with
  | zero => rfl
  | succ n ih =>
    have hend : (path.slashed (n + 1)).text.toList = (path.slashed n).text.toList ++ '/' :: [] := by
      simp [slashed]
    rw [steps_eq, hend, stepsIn_append_slash, ← steps_eq, ih]
    simp [stepsIn, pieces]

theorem Path.size_slashed :
    (path.slashed n).text.utf8ByteSize = path.text.utf8ByteSize + n := by
  induction n with
  | zero => rfl
  | succ n ih =>
    have hend : (path.slashed (n + 1)).text = (path.slashed n).text ++ "/" := rfl
    rw [hend, String.utf8ByteSize_append, ih]
    rfl

theorem Path.toList_slashed :
    (path.slashed n).text.toList = path.text.toList ++ List.replicate n '/' := by
  induction n with
  | zero => simp [slashed]
  | succ n ih => simp [slashed, ih, List.replicate_succ']

theorem Path.Leads.slashed (h : path.Leads grounds home dir []) (hne : path.text ≠ "") :
    (path.slashed n).Leads grounds home dir [] := by
  have habsolute : (path.slashed n).isAbsolute = path.isAbsolute := by
    have hchars : path.text.toList ≠ [] := by simpa using hne
    rw [isAbsolute, isAbsolute, toList_slashed, List.head?_append_of_ne_nil _ hchars]
  refine ⟨h.found, ?_⟩
  rw [steps_slashed, habsolute]
  exact h.way

theorem Path.join_slashed (hname : IsName name) :
    (path.slashed (n + 1)).join name = ⟨(path.slashed (n + 1)).text ++ name⟩ := by
  have hend : (path.slashed (n + 1)).endsInSlash = true := by simp [endsInSlash, slashed]
  rw [join, isAbsolute_mk_of_isName hname, hend, Bool.or_true]
  rfl

theorem Path.fault?_slashed_append (hne : path.text ≠ "") (hnul : '\x00' ∉ path.text.toList)
    (hname : '\x00' ∉ name.toList) : (Path.mk ((path.slashed n).text ++ name)).fault? =
      if maxPathBytes < path.text.utf8ByteSize + n + name.utf8ByteSize then some .nameTooLong
      else none := by
  have hcontains : ((path.slashed n).text ++ name).toList.contains '\x00' = false := by
    simp [toList_slashed, hnul, hname]
  have hempty : (Path.mk ((path.slashed n).text ++ name)).isEmpty = false := by
    have hchars : ((path.slashed n).text ++ name).toList ≠ [] := by simp [toList_slashed, hne]
    simpa [isEmpty] using hchars
  rw [fault?, hcontains, hempty, String.utf8ByteSize_append, size_slashed, if_neg (by decide)]
  rfl

end Slashed

section Leads
variable {path : Path} {disk : Disk} {dir : Location} {name : String} {entry : Entry}
  {tree : FileTree} {bytes : Nat}

theorem Path.leads_here (h : tree.find? dir = some .directory) :
    (Path.mk ".").Leads [tree] dir dir [] := by
  refine ⟨List.forall_mem_singleton.2 h, [.here], by decide, ?_⟩
  exact List.forall_mem_singleton.2 ⟨_, .here .stop⟩

theorem Path.leads_up (h : tree.find? (name :: dir) = some .directory) :
    (Path.mk "..").Leads [tree] (name :: dir) dir [] := by
  have hbelow : tree.find? ([name] ++ dir) = some .directory := h
  refine ⟨List.forall_mem_singleton.2 (FileTree.find?_above hbelow), [.up], by decide, ?_⟩
  exact List.forall_mem_singleton.2 ⟨_, .up .stop⟩

theorem Path.Leads.entry_join (h : path.Leads [disk.tree] disk.home dir [])
    (hfault : (path.join name).fault? = none) (hfind : disk.tree.find? (name :: dir) = some entry)
    (hlink : disk.tree.NoLink (name :: dir)) :
    disk.entry (path.join name) = .ok (name :: dir, entry) := by
  have hname := isName_of_isFileName (FileTree.isFileName_of_find? hfind)
  have hsize : ¬ maxNameBytes < name.utf8ByteSize := Nat.not_lt.2 (FileTree.size_le_of_find? hfind)
  unfold Disk.entry
  rw [h.follow_join hname hlink, hfault]
  simp only [if_neg hsize, bind, Except.bind, hfind]

theorem Path.Leads.enter_join {home : Location} (h : path.Leads [tree] home dir [])
    (hname : IsName name) (hfound : tree.find? (name :: dir) = some .directory) :
    (path.join name).Leads [tree] home (name :: dir) [] :=
  (h.join hname).enter (List.forall_mem_singleton.2 hfound)

theorem Path.Leads.entry_slash (h : path.Leads [disk.tree] disk.home dir [])
    (hshort : path.Short bytes) (hbytes : bytes + 1 + maxNameBytes ≤ maxPathBytes)
    (hfind : disk.tree.find? (name :: dir) = some entry)
    (hlink : disk.tree.NoLink (name :: dir)) :
    disk.entry ⟨path.text ++ "/" ++ name⟩ = .ok (name :: dir, entry) := by
  have hfileName := FileTree.isFileName_of_find? hfind
  rw [← hshort.mk_join (isName_of_isFileName hfileName)]
  exact h.entry_join ((hshort.join hfileName).fault? hbytes) hfind hlink

end Leads

end Unbundle.Files
