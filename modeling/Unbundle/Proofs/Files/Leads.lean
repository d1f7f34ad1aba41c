import Unbundle.Files.Disk
import Unbundle.Proofs.Files.Way

/-! What paths name on two disks. A path that leads to one directory on both disks, and from there
on through names that they agree about and that are no links, names the same on both. -/

namespace Unbundle.Files
open Std (ExtTreeMap)
open FileTree (Along GoesOn)

/-- The fault of a path that is one for its text alone. -/
def Path.fault? (path : Path) : Option Fault :=
  if path.text.toList.contains '\x00' then some .nulInName
  else if maxPathBytes < path.text.utf8ByteSize then some .nameTooLong
  else if path.isEmpty then some .notFound
  else none

/-- A path leads to one directory in each of some trees, seen from `home`, and then on through
names. -/
structure Path.Leads (path : Path) (grounds : List FileTree) (home dir : Location)
    (names : List String) : Prop where
  found : ∀ ground ∈ grounds, ground.find? dir = some .directory
  way : ∃ steps, path.steps = steps ++ names.map .into ∧ ∀ ground ∈ grounds, ∃ left,
    ground.Way FileTree.maxLinks (if path.isAbsolute then [] else home) steps left dir

/-- The disk stands in `home` and has the directories and links of one of some trees. -/
structure Disk.Over (disk : Disk) (grounds : List FileTree) (home : Location) : Prop where
  home : disk.home = home
  keeps : ∃ ground ∈ grounds, disk.tree.Keeps ground

/-- Two trees agree about a location, which is no link. -/
def FileTree.Agrees (tree other : FileTree) (loc : Location) : Prop :=
  tree.find? loc = other.find? loc ∧ tree.NoLink loc

section Leads
variable {path : Path} {grounds : List FileTree} {home dir loc : Location} {names : List String}
  {disk other : Disk} {purpose : Purpose} {slashes : List Step}

theorem Disk.follow_eq (steps : List Step) : disk.follow path purpose steps =
    match path.fault? with
    | some fault => .error fault
    | none => disk.tree.walk purpose FileTree.maxLinks (disk.start path) steps := by
  unfold follow Path.fault?
  repeat' split
  all_goals simp_all

theorem Disk.follow_of_entry {entry : Entry} (h : disk.entry path = .ok (loc, entry)) :
    disk.follow path .target path.route = .ok loc ∧ disk.tree.find? loc = some entry := by
  unfold Disk.entry at h
  cases hfollow : disk.follow path .target path.route with
  | error fault => simp [hfollow, bind, Except.bind] at h
  | ok found =>
    simp only [hfollow, bind, Except.bind] at h
    split at h
    · next hfind =>
      cases h
      exact ⟨rfl, hfind⟩
    · cases h

theorem Disk.entry_of_fault {fault : Fault} (h : path.fault? = some fault) :
    disk.entry path = .error fault := by
  unfold Disk.entry
  rw [Disk.follow_eq, h]
  rfl

theorem Path.Leads.join {name : String} (h : path.Leads grounds home dir names)
    (hname : IsName name) : (path.join name).Leads grounds home dir (names ++ [name]) := by
  obtain ⟨found, steps, hsteps, hway⟩ := h
  refine ⟨found, steps, ?_, ?_⟩
  · rw [steps_join hname, hsteps, List.append_assoc, List.map_append]
    rfl
  · rwa [isAbsolute_join hname]

theorem Path.Leads.find? (h : path.Leads grounds home dir names) (hdisk : disk.Over grounds home) :
    disk.tree.find? dir = some .directory := by
  obtain ⟨ground, hground, hkeeps⟩ := hdisk.keeps
  exact (hkeeps dir).1 (h.found ground hground)

theorem goesOn_names (h : purpose = .target ∨ names ≠ []) :
    GoesOn purpose (names.map .into ++ slashes) := by
  rcases h with rfl | hne
  · exact Or.inl rfl
  · obtain ⟨name, names, rfl⟩ := List.exists_cons_of_ne_nil hne
    exact Or.inr ⟨by simp, by simp⟩

theorem Path.Leads.walk (h : path.Leads grounds home dir names) : ∃ steps,
    path.steps = steps ++ names.map .into ∧
    ∀ disk : Disk, disk.Over grounds home → ∃ left, ∀ purpose rest, GoesOn purpose rest →
      disk.tree.walk purpose FileTree.maxLinks (disk.start path) (steps ++ rest) =
        disk.tree.walk purpose left dir rest := by
  obtain ⟨-, steps, hsteps, hway⟩ := h
  refine ⟨steps, hsteps, fun disk hover => ?_⟩
  obtain ⟨ground, hground, hkeeps⟩ := hover.keeps
  obtain ⟨left, hway⟩ := hway ground hground
  refine ⟨left, fun purpose rest hrest => ?_⟩
  rw [Disk.start, hover.home]
  exact (hway.mono hkeeps).walk hrest

/-- What a path names is the same on two disks that agree about the names in it. -/
theorem Path.Leads.follow_congr (h : path.Leads grounds home dir names)
    (hdisk : disk.Over grounds home) (hother : other.Over grounds home)
    (hslashes : ∀ step ∈ slashes, step = .slash) (hpurpose : purpose = .target ∨ names ≠ [])
    (hnames : Along (disk.tree.Agrees other.tree) dir names) :
    disk.follow path purpose (path.steps ++ slashes) =
      other.follow path purpose (path.steps ++ slashes) := by
  obtain ⟨steps, hsteps, hwalk⟩ := h.walk
  obtain ⟨m, hwalkDisk⟩ := hwalk disk hdisk
  obtain ⟨n, hwalkOther⟩ := hwalk other hother
  have hgoes : GoesOn purpose (names.map Step.into ++ slashes) := goesOn_names hpurpose
  rw [Disk.follow_eq, Disk.follow_eq, hsteps, List.append_assoc, hwalkDisk _ _ hgoes,
    hwalkOther _ _ hgoes, FileTree.walk_names_congr hslashes hnames]

theorem Path.Leads.follow_eq_ok (h : path.Leads grounds home dir names)
    (hdisk : disk.Over grounds home) (hslashes : ∀ step ∈ slashes, step = .slash)
    (hpurpose : purpose = .target ∨ names ≠ []) (hnames : Along disk.tree.NoLink dir names)
    (hfollow : disk.follow path purpose (path.steps ++ slashes) = .ok loc) :
    loc = names.reverse ++ dir := by
  obtain ⟨steps, hsteps, hwalk⟩ := h.walk
  obtain ⟨left, hwalk⟩ := hwalk disk hdisk
  rw [Disk.follow_eq, hsteps, List.append_assoc, hwalk _ _ (goesOn_names hpurpose)] at hfollow
  split at hfollow
  · cases hfollow
  · exact FileTree.walk_names_eq hslashes hnames hfollow

theorem Path.exists_route_eq (path : Path) :
    ∃ slashes, path.route = path.steps ++ slashes ∧ ∀ step ∈ slashes, step = .slash := by
  refine ⟨_, rfl, fun step hstep => ?_⟩
  split at hstep
  · exact List.mem_singleton.1 hstep
  · cases hstep

theorem Path.leads_of_entry (h : ∀ ground ∈ grounds,
      Disk.entry { home, tree := ground } path = .ok (dir, .directory)) :
    path.Leads grounds home dir [] := by
  obtain ⟨slashes, hroute, hslashes⟩ := path.exists_route_eq
  have hway : ∀ ground ∈ grounds, ground.find? dir = some .directory ∧
      ∃ left, ground.Way FileTree.maxLinks (if path.isAbsolute then [] else home) path.steps left
        dir := by
    intro ground hground
    obtain ⟨hfollow, hfound⟩ := Disk.follow_of_entry (h ground hground)
    rw [Disk.follow_eq, hroute] at hfollow
    split at hfollow
    · cases hfollow
    · obtain ⟨_, hway⟩ := FileTree.way_of_walk hfound hfollow
      obtain ⟨left, mid, hway, hrest⟩ := hway.split
      obtain rfl := hrest.eq_of_slashes hslashes
      exact ⟨hfound, left, hway⟩
  exact ⟨fun ground hground => (hway ground hground).1, path.steps, by simp,
    fun ground hground => (hway ground hground).2⟩

theorem Path.Leads.exists_lastStep_eq {name : String}
    (h : path.Leads grounds home dir (names ++ [name])) (hdisk : disk.Over grounds home) :
    ∃ left, disk.lastStep path =
      match path.fault? with
      | some fault => .error fault
      | none => (disk.tree.walk .target left dir (names.map .into ++ [.slash])).map
          (·, some (.into name)) := by
  obtain ⟨steps, hsteps, hwalk⟩ := h.walk
  obtain ⟨left, hwalk⟩ := hwalk disk hdisk
  have hsplit : path.steps = (steps ++ names.map .into) ++ [.into name] := by
    rw [hsteps, List.map_append, List.append_assoc]
    rfl
  refine ⟨left, ?_⟩
  unfold Disk.lastStep
  rw [hsplit, List.dropLast_concat, List.getLast?_concat, Disk.follow_eq, List.append_assoc,
    hwalk .target _ (.inl rfl)]
  cases path.fault? with
  | some fault => rfl
  | none => rfl

theorem Path.Leads.lastStep_congr {name : String}
    (h : path.Leads grounds home dir (names ++ [name])) (hdisk : disk.Over grounds home)
    (hother : other.Over grounds home)
    (hnames : Along (disk.tree.Agrees other.tree) dir names) :
    disk.lastStep path = other.lastStep path := by
  obtain ⟨m, hlastDisk⟩ := h.exists_lastStep_eq hdisk
  obtain ⟨n, hlastOther⟩ := h.exists_lastStep_eq hother
  rw [hlastDisk, hlastOther, FileTree.walk_names_congr (by simp) hnames]

theorem Path.Leads.lastStep_eq_ok {name : String} {last : Option Step}
    (h : path.Leads grounds home dir (names ++ [name])) (hdisk : disk.Over grounds home)
    (hnames : Along disk.tree.NoLink dir names) (hlast : disk.lastStep path = .ok (loc, last)) :
    loc = names.reverse ++ dir ∧ last = some (.into name) := by
  obtain ⟨left, heq⟩ := h.exists_lastStep_eq hdisk
  rw [heq] at hlast
  split at hlast
  · cases hlast
  · cases hwalk : disk.tree.walk .target left dir (names.map .into ++ [.slash]) with
    | error fault =>
      rw [hwalk] at hlast
      cases hlast
    | ok above =>
      rw [hwalk] at hlast
      cases hlast
      exact ⟨FileTree.walk_names_eq (by simp) hnames hwalk, rfl⟩

end Leads

section Children
variable {tree other : FileTree} {dir : Location} {name : String} {entry : Entry}

theorem FileTree.mem_children :
    (name, entry) ∈ tree.children dir ↔ tree.find? (name :: dir) = some entry := by
  unfold children find?
  rw [← ExtTreeMap.mem_toList_iff_getElem?_eq_some, List.mem_filterMap]
  constructor
  · rintro ⟨⟨loc, entry'⟩, hmem, heq⟩
    cases loc with
    | nil => cases heq
    | cons name' above =>
      simp only at heq
      split at heq
      · next habove =>
        cases heq
        exact habove ▸ hmem
      · cases heq
  · intro hmem
    exact ⟨(name :: dir, entry), hmem, by simp⟩

theorem FileTree.isName_of_mem_children (h : (name, entry) ∈ tree.children dir) : IsName name := by
  refine isName_of_isFileName (@FileTree.named tree name dir ?_)
  exact ExtTreeMap.mem_iff_isSome_getElem?.2 (Option.isSome_of_eq_some (mem_children.1 h))

def isIn (dir : Location) : Location → Bool
  | [] => false
  | _ :: above => above = dir

theorem FileTree.children_eq_filter : tree.children dir =
    (tree.entries.filter fun loc _ => isIn dir loc).toList.filterMap fun
      | (name :: above, entry) => if above = dir then some (name, entry) else none
      | ([], _) => none := by
  rw [ExtTreeMap.toList_filter, List.filterMap_filter, children]
  congr 1
  funext ⟨loc, entry⟩
  cases loc with
  | nil => rfl
  | cons name above =>
    by_cases h : above = dir
    · simp [isIn, h]
    · simp [isIn, h]

theorem FileTree.children_congr
    (h : ∀ name, tree.find? (name :: dir) = other.find? (name :: dir)) :
    tree.children dir = other.children dir := by
  rw [children_eq_filter, children_eq_filter]
  congr 2
  refine ExtTreeMap.ext_getElem? fun loc => ?_
  rw [ExtTreeMap.getElem?_filter', ExtTreeMap.getElem?_filter']
  cases loc with
  | nil => cases tree.entries[([] : Location)]? <;> cases other.entries[([] : Location)]? <;> rfl
  | cons name above =>
    by_cases hin : above = dir
    · subst hin
      exact congrArg _ (h name)
    · cases tree.entries[name :: above]? <;> cases other.entries[name :: above]? <;>
        simp [isIn, hin, Option.filter]

end Children

section Reads
variable {path : Path} {grounds : List FileTree} {home dir : Location} {names : List String}
  {disk other : Disk}

theorem Path.Leads.find?_congr {more : List String} (h : path.Leads grounds home dir names)
    (hdisk : disk.Over grounds home) (hother : other.Over grounds home)
    (hmore : Along (disk.tree.Agrees other.tree) dir more) :
    disk.tree.find? (more.reverse ++ dir) = other.tree.find? (more.reverse ++ dir) := by
  rcases List.eq_nil_or_concat more with rfl | ⟨init, name, rfl⟩
  · exact (h.find? hdisk).trans (h.find? hother).symm
  · rw [List.concat_eq_append] at hmore ⊢
    rw [List.reverse_append]
    exact hmore.last.1

theorem Path.Leads.entry_congr (h : path.Leads grounds home dir names)
    (hdisk : disk.Over grounds home) (hother : other.Over grounds home)
    (hnames : Along (disk.tree.Agrees other.tree) dir names) :
    disk.entry path = other.entry path := by
  obtain ⟨slashes, hroute, hslashes⟩ := path.exists_route_eq
  have hlinks : Along disk.tree.NoLink dir names := hnames.imp fun _ h => h.2
  unfold Disk.entry
  rw [hroute, ← h.follow_congr hdisk hother hslashes (Or.inl rfl) hnames]
  cases hfollow : disk.follow path .target (path.steps ++ slashes) with
  | error fault => rfl
  | ok loc =>
    obtain rfl := h.follow_eq_ok hdisk hslashes (Or.inl rfl) hlinks hfollow
    simp only [bind, Except.bind, h.find?_congr hdisk hother hnames]

theorem Path.Leads.entry_eq_ok (h : path.Leads grounds home dir names)
    (hdisk : disk.Over grounds home) (hnames : Along disk.tree.NoLink dir names)
    {loc : Location} {entry : Entry} (hentry : disk.entry path = .ok (loc, entry)) :
    loc = names.reverse ++ dir ∧ disk.tree.find? loc = some entry := by
  obtain ⟨slashes, hroute, hslashes⟩ := path.exists_route_eq
  obtain ⟨hfollow, hfind⟩ := Disk.follow_of_entry hentry
  rw [hroute] at hfollow
  exact ⟨h.follow_eq_ok hdisk hslashes (Or.inl rfl) hnames hfollow, hfind⟩

theorem Path.Leads.list_congr (h : path.Leads grounds home dir names)
    (hdisk : disk.Over grounds home) (hother : other.Over grounds home)
    (hnames : Along (disk.tree.Agrees other.tree) dir names)
    (hchildren : ∀ name, disk.tree.find? (name :: (names.reverse ++ dir)) =
      other.tree.find? (name :: (names.reverse ++ dir))) :
    disk.list path = other.list path := by
  have hlinks : Along disk.tree.NoLink dir names := hnames.imp fun _ h => h.2
  unfold Disk.list
  rw [← h.entry_congr hdisk hother hnames]
  cases hentry : disk.entry path with
  | error fault => rfl
  | ok found =>
    obtain ⟨loc, entry⟩ := found
    obtain ⟨rfl, -⟩ := h.entry_eq_ok hdisk hlinks hentry
    simp only [bind, Except.bind, FileTree.children_congr hchildren]

theorem Disk.isName_of_mem_list {entries : List (String × Entry)} {name : String} {entry : Entry}
    (hlist : disk.list path = .ok entries) (h : (name, entry) ∈ entries) : IsName name := by
  unfold Disk.list at hlist
  cases hentry : disk.entry path with
  | error fault => simp [hentry, bind, Except.bind] at hlist
  | ok found =>
    obtain ⟨loc, found⟩ := found
    simp only [hentry, bind, Except.bind] at hlist
    split at hlist
    · cases hlist
      exact FileTree.isName_of_mem_children h
    · cases hlist

end Reads

end Unbundle.Files
