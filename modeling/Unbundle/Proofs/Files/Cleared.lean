import Unbundle.Proofs.Files.Directories
import Unbundle.Proofs.Files.Ends

/-! Directories taken away, in closed form. A path that leads to a directory by plain names, from
one that stays, takes it away with all it holds. What a tree has in common with what is left of it
is found by the same ways. -/

namespace Unbundle.Files
open FileTree (Along)

namespace FileTree

/-- Two trees that have the same wherever both have something. -/
def Compatible (tree other : FileTree) : Prop :=
  ∀ loc, tree.find? loc = none ∨ other.find? loc = none ∨ tree.find? loc = other.find? loc

section Trees
variable {tree other : FileTree} {n m left left' : Nat} {dir loc mid base base' : Location}
  {names : List String} {name : String} {steps first rest slashes : List Step} {entry : Entry}
  {purpose : Purpose}

theorem find?_none_of_suffix (h : tree.find? dir = none) (hloc : dir <:+ loc) :
    tree.find? loc = none := by
  obtain ⟨more, rfl⟩ := hloc
  induction more with
  | nil => exact h
  | cons name more ih =>
    cases hfind : tree.find? (name :: (more ++ dir)) with
    | none => exact hfind
    | some entry =>
      rw [find?_dir hfind] at ih
      cases ih

theorem erase_of_find?_none (hne : dir ≠ []) (h : tree.find? dir = none) :
    tree.erase dir = tree := by
  refine ext fun loc => ?_
  rw [find?_erase hne]
  split
  · next hloc => exact (find?_none_of_suffix h hloc).symm
  · rfl

theorem erase_eraseBelow (hne : dir ≠ []) : (tree.eraseBelow dir).erase dir = tree.erase dir := by
  refine ext fun loc => ?_
  rw [find?_erase hne, find?_erase hne, find?_eraseBelow]
  split
  · rfl
  · next hloc => exact if_neg fun hbeneath => hloc hbeneath.1

theorem keeps_erase (hne : dir ≠ []) : tree.Keeps (tree.erase dir) := by
  have hfound : ∀ {loc entry}, (tree.erase dir).find? loc = some entry →
      tree.find? loc = some entry := by
    intro loc entry h
    rw [find?_erase hne] at h
    split at h
    · cases h
    · exact h
  exact fun loc => ⟨hfound, fun target => hfound⟩

theorem keeps_eraseBelow (hne : dir ≠ []) : (tree.eraseBelow dir).Keeps (tree.erase dir) := by
  rw [← erase_eraseBelow hne]
  exact keeps_erase hne

theorem walk_names_of_directory (hslashes : ∀ step ∈ slashes, step = .slash)
    (hpurpose : purpose ≠ .writing) (h : tree.find? (names.reverse ++ dir) = some .directory) :
    tree.walk purpose n dir (names.map .into ++ slashes) = .ok (names.reverse ++ dir) := by
  induction names generalizing dir with
  | nil =>
    simp only [List.map_nil, List.nil_append, List.reverse_nil]
    clear h
    induction slashes with
    | nil => exact walk_nil
    | cons step slashes ih =>
      obtain ⟨rfl, hmore⟩ := List.forall_mem_cons.1 hslashes
      rw [walk_slash, ih hmore]
  | cons name names ih =>
    rw [List.reverse_cons, List.append_assoc, List.singleton_append] at h ⊢
    have hfound : tree.find? (name :: dir) = some .directory := find?_above h
    rw [List.map_cons, List.cons_append, walk_into, if_neg (fun hwrite => hpurpose hwrite.1),
      if_neg (Nat.not_lt.2 (size_le_of_find? hfound)), hfound]
    exact ih h

/-- Ways by the same steps in compatible trees lead to the same place. -/
theorem Way.eq_of_compatible (h : tree.Way n dir steps left base)
    (hother : other.Way n dir steps left' base') (hcompatible : tree.Compatible other) :
    base' = base := by
  have hsame : ∀ {loc entry entry'}, tree.find? loc = some entry →
      other.find? loc = some entry' → entry' = entry := by
    intro loc entry entry' hfound hfound'
    rcases hcompatible loc with hnone | hnone | heq
    · rw [hnone] at hfound
      cases hfound
    · rw [hnone] at hfound'
      cases hfound'
    · rw [heq, hfound'] at hfound
      exact Option.some.inj hfound
  induction h with
  | stop => cases hother with | stop => rfl
  | here _ ih => cases hother with | here more => exact ih more
  | slash _ ih => cases hother with | slash more => exact ih more
  | up _ ih => cases hother with | up more => exact ih more
  | into _ found _ ih =>
    cases hother with
    | into _ found' more => exact ih more
    | link _ found' => cases hsame found found'
  | link _ found _ ih =>
    cases hother with
    | into _ found' => cases hsame found found'
    | link _ found' more =>
      cases hsame found found'
      exact ih more

theorem Ends.before (h : tree.Ends n dir steps loc) (hsteps : steps = first ++ .into name :: rest)
    (hfound : tree.find? loc = some entry) :
    ∃ left mid, tree.Way n dir first left mid ∧ tree.find? mid = some .directory := by
  induction h generalizing first with
  | stop => simp at hsteps
  | here _ ih =>
    rcases List.cons_eq_append_iff.1 hsteps with ⟨rfl, htail⟩ | ⟨first, rfl, htail⟩
    · cases htail
    · obtain ⟨left, mid, hway, hmid⟩ := ih htail hfound
      exact ⟨left, mid, .here hway, hmid⟩
  | slash _ ih =>
    rcases List.cons_eq_append_iff.1 hsteps with ⟨rfl, htail⟩ | ⟨first, rfl, htail⟩
    · cases htail
    · obtain ⟨left, mid, hway, hmid⟩ := ih htail hfound
      exact ⟨left, mid, .slash hway, hmid⟩
  | up _ ih =>
    rcases List.cons_eq_append_iff.1 hsteps with ⟨rfl, htail⟩ | ⟨first, rfl, htail⟩
    · cases htail
    · obtain ⟨left, mid, hway, hmid⟩ := ih htail hfound
      exact ⟨left, mid, .up hway, hmid⟩
  | @into n dir _ _ _ size found _ ih =>
    rcases List.cons_eq_append_iff.1 hsteps with ⟨rfl, -⟩ | ⟨first, rfl, htail⟩
    · exact ⟨n, dir, .stop, find?_dir found⟩
    · obtain ⟨left, mid, hway, hmid⟩ := ih htail hfound
      exact ⟨left, mid, .into size found hway, hmid⟩
  | @link n dir _ target _ _ size found _ ih =>
    rcases List.cons_eq_append_iff.1 hsteps with ⟨rfl, -⟩ | ⟨first, rfl, htail⟩
    · exact ⟨n + 1, dir, .stop, find?_dir found⟩
    · -- what the link stands for goes in front of the first steps
      obtain ⟨left, mid, hway, hmid⟩ := @ih (target.route ++ first)
        (by rw [htail, List.append_assoc]) hfound
      exact ⟨left, mid, .link size found hway, hmid⟩
  | @last n dir _ _ _ _ =>
    rcases List.cons_eq_append_iff.1 hsteps with ⟨rfl, -⟩ | ⟨first, rfl, htail⟩
    · exact ⟨n, dir, .stop, find?_dir hfound⟩
    · simp at htail

end Trees

end FileTree

section Paths
variable {disk : Disk} {path : Path} {loc dir : Location} {names : List String} {name : String}
  {entry : Entry} {grounds : List FileTree} {home : Location}

theorem Disk.fault?_of_entry (h : disk.entry path = .ok (loc, entry)) : path.fault? = none := by
  obtain ⟨hfollow, -⟩ := Disk.follow_of_entry h
  rw [Disk.follow_eq] at hfollow
  cases hfault : path.fault? with
  | none => rfl
  | some fault =>
    rw [hfault] at hfollow
    cases hfollow

theorem Path.Leads.entryItself_eq (h : path.Leads grounds home dir (names ++ [name]))
    (hdisk : disk.Over grounds home) (hfault : path.fault? = none)
    (hfound : disk.tree.find? (name :: (names.reverse ++ dir)) = some .directory) :
    disk.entryItself path = .ok (name :: (names.reverse ++ dir), .directory) := by
  obtain ⟨slashes, hroute, hslashes⟩ := path.exists_route_eq
  obtain ⟨steps, hsteps, hwalk⟩ := h.walk
  obtain ⟨left, hwalk⟩ := hwalk disk hdisk
  have hend := hwalk .entry ((names ++ [name]).map .into ++ slashes) (.inr ⟨by simp, by
    intro heq
    have hmem : Step.into name ∈ [Step.slash] := by
      rw [← heq]
      simp
    simp at hmem⟩)
  have hnames := @FileTree.walk_names_of_directory disk.tree left dir (names ++ [name]) slashes
    .entry hslashes (by simp) (by simpa using hfound)
  unfold Disk.entryItself
  rw [Disk.follow_eq, hroute, hsteps, hfault, List.append_assoc]
  simp only [hend, hnames, bind, Except.bind]
  simp [hfound]

/-- A directory is taken away, when the path to it does not lead through what it holds. -/
theorem Path.Leads.run_removeAll
    (h : path.Leads [disk.tree.erase (name :: (names.reverse ++ dir))] disk.home dir
      (names ++ [name])) (hlinks : Along disk.tree.NoLink dir names) (hfault : path.fault? = none)
    (hfound : disk.tree.find? (name :: (names.reverse ++ dir)) = some .directory) :
    (DiskM.removeAll path).run.run disk =
      (.ok (), { disk with tree := disk.tree.erase (name :: (names.reverse ++ dir)) }) := by
  have hover : disk.Over [disk.tree.erase (name :: (names.reverse ++ dir))] disk.home :=
    ⟨rfl, _, List.mem_singleton_self _, FileTree.keeps_erase (by simp)⟩
  have hemptied : Disk.Over { disk with tree := disk.tree.eraseBelow (name :: (names.reverse ++ dir)) }
      [disk.tree.erase (name :: (names.reverse ++ dir))] disk.home :=
    ⟨rfl, _, List.mem_singleton_self _, FileTree.keeps_eraseBelow (by simp)⟩
  have habove : (disk.tree.eraseBelow (name :: (names.reverse ++ dir))).find?
      (names.reverse ++ dir) = some .directory := by
    rw [FileTree.find?_eraseBelow, if_neg fun hbeneath =>
      absurd hbeneath.1.length_le (by simp)]
    exact FileTree.find?_dir hfound
  have hlinks' : Along (disk.tree.eraseBelow (name :: (names.reverse ++ dir))).NoLink dir names := by
    refine hlinks.imp fun loc hlink target hfind => ?_
    rw [FileTree.find?_eraseBelow] at hfind
    split at hfind
    · cases hfind
    · exact hlink target hfind
  have hlast := h.lastStep_eq hemptied hlinks' hfault
  rw [FileTree.reach_of_find? habove] at hlast
  unfold DiskM.removeAll
  rw [run_bind, run_ofDisk, h.entryItself_eq hover hfault hfound]
  have herase := @FileTree.erase_eraseBelow disk.tree (name :: (names.reverse ++ dir)) (by simp)
  have hmodify : ∀ (change : Disk → Disk) (d : Disk),
      (modify change : DiskM Fault Unit).run.run d = (.ok (), change d) := fun _ _ => rfl
  simp only [run_bind, hmodify, run_get, hlast, Except.map, if_true, herase]

theorem Path.Leads.exists_run_removeAll_error (h : path.Leads grounds home dir (names ++ [name]))
    (hdisk : disk.Over grounds home) (hlinks : Along disk.tree.NoLink dir (names ++ [name]))
    {content : ByteArray}
    (hfile : disk.tree.find? (name :: (names.reverse ++ dir)) = some (.file content)) :
    ∃ fault, (DiskM.removeAll path).run.run disk = (.error fault, disk) := by
  unfold DiskM.removeAll
  rw [run_bind, run_ofDisk]
  cases hentry : disk.entryItself path with
  | error fault => exact ⟨fault, rfl⟩
  | ok found =>
    obtain ⟨loc, entry⟩ := found
    obtain rfl := h.entryItself_eq_ok hdisk hlinks hentry
    unfold Disk.entryItself at hentry
    cases hfollow : disk.follow path .entry path.route with
    | error fault => simp [hfollow, bind, Except.bind] at hentry
    | ok loc =>
      simp only [hfollow, bind, Except.bind] at hentry
      split at hentry
      · next hfound =>
        cases hentry
        rw [hfile] at hfound
        cases hfound
        exact ⟨.notDirectory, rfl⟩
      · cases hentry

theorem Path.Leads.pathExists_eq_false (h : path.Leads grounds home dir names)
    (hdisk : disk.Over grounds home) (hlinks : Along disk.tree.NoLink dir names)
    (hnone : disk.tree.find? (names.reverse ++ dir) = none) : disk.pathExists path = false := by
  unfold Disk.pathExists
  cases hentry : disk.entry path with
  | error fault => rfl
  | ok found =>
    obtain ⟨loc, entry⟩ := found
    obtain ⟨rfl, hfind⟩ := h.entry_eq_ok hdisk hlinks hentry
    rw [hnone] at hfind
    cases hfind

theorem Disk.entry_eq_of_compatible {other : Disk} {loc' : Location} (hhome : other.home = disk.home)
    (hcompatible : disk.tree.Compatible other.tree)
    (hentry : disk.entry path = .ok (loc, .directory))
    (hother : other.entry path = .ok (loc', .directory)) : loc' = loc := by
  have hfault := Disk.fault?_of_entry hentry
  obtain ⟨hfollow, hfound⟩ := Disk.follow_of_entry hentry
  obtain ⟨hfollow', hfound'⟩ := Disk.follow_of_entry hother
  rw [Disk.follow_eq, hfault] at hfollow hfollow'
  rw [Disk.start, hhome] at hfollow'
  obtain ⟨left, hway⟩ := FileTree.way_of_walk hfound hfollow
  obtain ⟨left', hway'⟩ := FileTree.way_of_walk hfound' hfollow'
  exact hway.eq_of_compatible hway' hcompatible

theorem Disk.exists_entry_of_behind {behind : Path} {rest : List Step}
    (hsteps : behind.steps = path.steps ++ .into name :: rest)
    (habsolute : behind.isAbsolute = path.isAbsolute) (hfault : path.fault? = none)
    (hentry : disk.entry behind = .ok (loc, entry)) :
    ∃ dir, disk.entry path = .ok (dir, .directory) := by
  obtain ⟨hfollow, hfound⟩ := Disk.follow_of_entry hentry
  obtain ⟨slashes, hroute, -⟩ := behind.exists_route_eq
  rw [Disk.follow_eq, hroute, hsteps, List.append_assoc, List.cons_append] at hfollow
  split at hfollow
  · cases hfollow
  · obtain ⟨left, dir, hway, hdir⟩ := (FileTree.ends_of_walk (by simp) hfollow).before rfl hfound
    have hstart : disk.start behind = if path.isAbsolute then [] else disk.home := by
      rw [Disk.start, habsolute]
    rw [hstart] at hway
    have hleads : path.Leads [disk.tree] disk.home dir [] :=
      ⟨List.forall_mem_singleton.2 hdir, path.steps, by simp,
        List.forall_mem_singleton.2 ⟨left, hway⟩⟩
    exact ⟨dir, hleads.entry_eq disk.over_self hfault⟩

end Paths

end Unbundle.Files
