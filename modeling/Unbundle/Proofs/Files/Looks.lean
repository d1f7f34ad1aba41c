import Unbundle.Proofs.Files.Reached
import Unbundle.Proofs.Files.Trees

/-! What a walk looks at. Two disks that agree outside some locations agree about a path that never
leads to one of them, and the directories of such a path are made, and what it names is removed, in
step on both. -/

namespace Unbundle.Files

namespace FileTree

/-- A walk that takes steps from a directory looks at a location. A name may be that of a directory
by then, whatever it is that of now, so that the walk goes on behind every name, and behind every
link that it may pass. -/
inductive LooksAt (tree : FileTree) : Nat → Location → List Step → Location → Prop where
  | here {n dir rest loc} (more : LooksAt tree n dir rest loc) :
      LooksAt tree n dir (.here :: rest) loc
  | slash {n dir rest loc} (more : LooksAt tree n dir rest loc) :
      LooksAt tree n dir (.slash :: rest) loc
  | up {n dir rest loc} (more : LooksAt tree n dir.tail rest loc) :
      LooksAt tree n dir (.up :: rest) loc
  | name {n dir name rest} : LooksAt tree n dir (.into name :: rest) (name :: dir)
  | into {n dir name rest loc} (more : LooksAt tree n (name :: dir) rest loc) :
      LooksAt tree n dir (.into name :: rest) loc
  | link {n dir name target rest loc} (found : tree.find? (name :: dir) = some (.link target))
      (more : LooksAt tree n (if target.isAbsolute then [] else dir) (target.route ++ rest) loc) :
      LooksAt tree (n + 1) dir (.into name :: rest) loc

section Steps
variable {tree other : FileTree} {purpose : Purpose} {n : Nat} {dir loc : Location}
  {steps more a b : List Step} {step : Step} {name : String}

theorem looksAt_here : tree.LooksAt n dir (.here :: steps) loc ↔ tree.LooksAt n dir steps loc :=
  ⟨fun | .here more => more, .here⟩

theorem looksAt_slash : tree.LooksAt n dir (.slash :: steps) loc ↔ tree.LooksAt n dir steps loc :=
  ⟨fun | .slash more => more, .slash⟩

theorem looksAt_up : tree.LooksAt n dir (.up :: steps) loc ↔ tree.LooksAt n dir.tail steps loc :=
  ⟨fun | .up more => more, .up⟩

theorem looksAt_into : tree.LooksAt n dir (.into name :: steps) loc ↔
    loc = name :: dir ∨ tree.LooksAt n (name :: dir) steps loc ∨
      ∃ m < n, ∃ target, n = m + 1 ∧ tree.find? (name :: dir) = some (.link target) ∧
        tree.LooksAt m (if target.isAbsolute then [] else dir) (target.route ++ steps) loc := by
  constructor
  · intro h
    cases h with
    | name => exact .inl rfl
    | into more => exact .inr (.inl more)
    | link found more => exact .inr (.inr ⟨_, Nat.lt_succ_self _, _, rfl, found, more⟩)
  · rintro (rfl | more | ⟨m, -, target, rfl, found, more⟩)
    · exact .name
    · exact .into more
    · exact .link found more

theorem looksAt_idle (hstep : step = .here ∨ step = .slash) :
    tree.LooksAt n dir (a ++ step :: b) loc ↔ tree.LooksAt n dir (a ++ b) loc := by
  induction n using Nat.strongRecOn generalizing dir a with
  | ind n ihn =>
    induction a generalizing dir with
    | nil =>
      rcases hstep with rfl | rfl
      · exact looksAt_here
      · exact looksAt_slash
    | cons first a iha =>
      rw [List.cons_append, List.cons_append]
      cases first with
      | here => rw [looksAt_here, looksAt_here, iha]
      | slash => rw [looksAt_slash, looksAt_slash, iha]
      | up => rw [looksAt_up, looksAt_up, iha]
      | into name =>
        rw [looksAt_into, looksAt_into, iha]
        refine or_congr_right (or_congr_right (exists_congr fun m => and_congr_right fun hlt =>
          exists_congr fun target => and_congr_right fun _ => and_congr_right fun _ => ?_))
        rw [← List.append_assoc, ← List.append_assoc]
        exact ihn m hlt

theorem looksAt_slashes (hslashes : ∀ step ∈ more, step = .slash) :
    tree.LooksAt n dir (steps ++ more) loc ↔ tree.LooksAt n dir steps loc := by
  induction more with
  | nil => rw [List.append_nil]
  | cons step more ih =>
    obtain ⟨hstep, hmore⟩ := List.forall_mem_cons.1 hslashes
    rw [looksAt_idle (.inr hstep), ih hmore]

theorem looksAt_plain {absolute : Bool} :
    tree.LooksAt n dir (Path.plain absolute steps) loc ↔ tree.LooksAt n dir steps loc := by
  have hfilter : ∀ (b a : List Step), tree.LooksAt n dir (a ++ b.filter (· != .here)) loc ↔
      tree.LooksAt n dir (a ++ b) loc := by
    intro b
    induction b with
    | nil => exact fun _ => Iff.rfl
    | cons step b ih =>
      intro a
      by_cases hhere : step = .here
      · rw [List.filter_cons_of_neg (by simp [hhere]), ih, looksAt_idle (.inl hhere)]
      · rw [List.filter_cons_of_pos (by simp [hhere]), List.append_cons, ih, ← List.append_cons]
  cases steps with
  | nil => exact Iff.rfl
  | cons first rest =>
    rw [Path.plain]
    split
    · next hfirst =>
      obtain rfl : first = .here := by simpa using (Bool.and_eq_true_iff.1 hfirst).2
      exact (hfilter rest []).trans looksAt_here.symm
    · exact hfilter rest [first]

theorem LooksAt.append (h : tree.LooksAt n dir steps loc) :
    tree.LooksAt n dir (steps ++ more) loc := by
  induction h with
  | here _ ih => exact .here ih
  | slash _ ih => exact .slash ih
  | up _ ih => exact .up ih
  | name => exact .name
  | into _ ih => exact .into ih
  | link found _ ih =>
    rw [List.append_assoc] at ih
    exact .link found ih

theorem LooksAt.mono (h : other.LooksAt n dir steps loc)
    (hlinks : ∀ loc target, tree.LooksAt n dir steps loc → other.find? loc = some (.link target) →
      tree.find? loc = some (.link target)) : tree.LooksAt n dir steps loc := by
  induction h with
  | here _ ih => exact .here (ih fun loc target hlooks => hlinks loc target (.here hlooks))
  | slash _ ih => exact .slash (ih fun loc target hlooks => hlinks loc target (.slash hlooks))
  | up _ ih => exact .up (ih fun loc target hlooks => hlinks loc target (.up hlooks))
  | name => exact .name
  | into _ ih => exact .into (ih fun loc target hlooks => hlinks loc target (.into hlooks))
  | link found _ ih =>
    have hfound := hlinks _ _ .name found
    exact .link hfound (ih fun loc target hlooks => hlinks loc target (.link hfound hlooks))

/-- A walk comes to the same in a tree that has the same wherever it looks. -/
theorem walk_congr_looksAt
    (h : ∀ loc, tree.LooksAt n dir steps loc → tree.find? loc = other.find? loc) :
    tree.walk purpose n dir steps = other.walk purpose n dir steps := by
  induction n using Nat.strongRecOn generalizing dir steps with
  | ind n ihn =>
    induction steps generalizing dir with
    | nil => rw [walk_nil, walk_nil]
    | cons step steps ih =>
      cases step with
      | here => rw [walk_here, walk_here, ih fun loc hlooks => h loc (.here hlooks)]
      | slash => rw [walk_slash, walk_slash, ih fun loc hlooks => h loc (.slash hlooks)]
      | up => rw [walk_up, walk_up, ih fun loc hlooks => h loc (.up hlooks)]
      | into name =>
        have hfound := h _ .name
        rw [walk_into, walk_into, ← hfound]
        congr 2
        cases hfind : tree.find? (name :: dir) with
        | none => rfl
        | some entry =>
          cases entry with
          | file content => rfl
          | directory => exact ih fun loc hlooks => h loc (.into hlooks)
          | link target =>
            simp only [enter]
            congr 1
            cases n with
            | zero => rfl
            | succ n => exact ihn n (Nat.lt_succ_self n) fun loc hlooks => h loc (.link hfind hlooks)

theorem looksAt_last (h : tree.walk .target n dir (steps ++ [.slash]) = .ok loc) :
    tree.LooksAt n dir (steps ++ [.into name]) (name :: loc) := by
  induction n using Nat.strongRecOn generalizing dir steps with
  | ind n ihn =>
    induction steps generalizing dir with
    | nil =>
      rw [List.nil_append, walk_slash, walk_nil] at h
      cases h
      exact .name
    | cons step steps ih =>
      rw [List.cons_append] at h ⊢
      cases step with
      | here => exact .here (ih (walk_here.symm.trans h))
      | slash => exact .slash (ih (walk_slash.symm.trans h))
      | up => exact .up (ih (walk_up.symm.trans h))
      | into first =>
        obtain ⟨-, ⟨hnil, -⟩ | ⟨-, hwalk⟩ | ⟨target, hfound, hgo⟩⟩ := walk_into_cases h
        · simp at hnil
        · exact .into (ih hwalk)
        · cases n with
          | zero => cases hgo
          | succ n =>
            refine .link hfound ?_
            rw [← List.append_assoc] at hgo ⊢
            exact ihn n (Nat.lt_succ_self n) hgo

end Steps

end FileTree

/-- What lies below one of some locations is one of them, and the root is none. -/
structure Downward (hidden : Location → Prop) : Prop where
  root : ¬ hidden []
  below : ∀ {name dir}, hidden dir → hidden (name :: dir)

/-- Two disks that agree about everything but some locations, to which some paths never lead. The
first one has no more links than a tree that it came from. -/
structure SameOutside (hidden : Location → Prop) (paths : List Path) (ground : FileTree)
    (base : Location) (disk other : Disk) : Prop where
  home : disk.home = base
  home' : other.home = base
  same : ∀ {loc}, ¬ hidden loc → disk.tree.find? loc = other.tree.find? loc
  start : ∀ path ∈ paths, ¬ hidden (disk.start path)
  looks : ∀ path ∈ paths, ∀ {loc}, disk.tree.LooksAt FileTree.maxLinks (disk.start path) path.steps
    loc → ¬ hidden loc
  links : ∀ {loc target}, disk.tree.find? loc = some (.link target) →
    ground.find? loc = some (.link target)

section SameOutside
variable {hidden : Location → Prop} {paths above : List Path} {path : Path} {disk other : Disk}
  {ground tree tree' : FileTree} {purpose : Purpose} {steps : List Step} {n : Nat}
  {base dir loc : Location}
  {name : String}

theorem Downward.not_tail (h : Downward hidden) (hdir : ¬ hidden dir) : ¬ hidden dir.tail := by
  cases dir with
  | nil => exact h.root
  | cons name dir => exact mt h.below hdir

theorem Downward.not_of_walk (h : Downward hidden) (hdir : ¬ hidden dir)
    (hlooks : ∀ loc, tree.LooksAt n dir steps loc → ¬ hidden loc)
    (hwalk : tree.walk purpose n dir steps = .ok loc) : ¬ hidden loc := by
  induction n using Nat.strongRecOn generalizing dir steps with
  | ind n ihn =>
    induction steps generalizing dir with
    | nil =>
      rw [FileTree.walk_nil] at hwalk
      cases hwalk
      exact hdir
    | cons step steps ih =>
      cases step with
      | here =>
        rw [FileTree.walk_here] at hwalk
        exact ih hdir (fun loc hlook => hlooks loc (.here hlook)) hwalk
      | slash =>
        rw [FileTree.walk_slash] at hwalk
        exact ih hdir (fun loc hlook => hlooks loc (.slash hlook)) hwalk
      | up =>
        rw [FileTree.walk_up] at hwalk
        exact ih (h.not_tail hdir) (fun loc hlook => hlooks loc (.up hlook)) hwalk
      | into name =>
        have hname := hlooks _ .name
        obtain ⟨-, ⟨-, rfl, -⟩ | ⟨-, hwalk⟩ | ⟨target, hfound, hgo⟩⟩ :=
          FileTree.walk_into_cases hwalk
        · exact hname
        · exact ih hname (fun loc hlook => hlooks loc (.into hlook)) hwalk
        · cases n with
          | zero => cases hgo
          | succ n =>
            refine ihn n (Nat.lt_succ_self n) ?_ (fun loc hlook => hlooks loc (.link hfound hlook)) hgo
            split
            · exact h.root
            · exact hdir

namespace SameOutside

theorem start_eq (h : SameOutside hidden paths ground base disk other) :
    disk.start path = other.start path := by
  rw [Disk.start, Disk.start, h.home, h.home']

theorem follow_congr (h : SameOutside hidden paths ground base disk other) (hpath : path ∈ paths)
    (hsteps : ∀ loc, disk.tree.LooksAt FileTree.maxLinks (disk.start path) steps loc →
      disk.tree.LooksAt FileTree.maxLinks (disk.start path) path.steps loc) :
    disk.follow path purpose steps = other.follow path purpose steps := by
  rw [Disk.follow_eq, Disk.follow_eq, ← h.start_eq]
  cases path.fault? with
  | some fault => rfl
  | none => exact FileTree.walk_congr_looksAt fun loc hlook =>
      h.same (h.looks path hpath (hsteps loc hlook))

theorem looksAt_route (hlook : disk.tree.LooksAt n dir path.route loc) :
    disk.tree.LooksAt n dir path.steps loc := by
  obtain ⟨slashes, hroute, hslashes⟩ := path.exists_route_eq
  rw [hroute] at hlook
  exact (FileTree.looksAt_slashes hslashes).1 hlook

theorem looksAt_above (hlook : disk.tree.LooksAt n dir (path.steps.dropLast ++ [.slash]) loc) :
    disk.tree.LooksAt n dir path.steps loc := by
  rw [FileTree.looksAt_slashes (by simp)] at hlook
  rcases List.eq_nil_or_concat path.steps with hnil | ⟨init, last, hlast⟩
  · simpa [hnil] using hlook
  · rw [hlast, List.concat_eq_append, List.dropLast_concat] at hlook
    rw [hlast, List.concat_eq_append]
    exact hlook.append

theorem not_of_follow (h : SameOutside hidden paths ground base disk other) (hdown : Downward hidden)
    (hpath : path ∈ paths) (hfollow : disk.follow path purpose path.route = .ok loc) :
    ¬ hidden loc := by
  rw [Disk.follow_eq] at hfollow
  cases hfault : path.fault? with
  | some fault =>
    rw [hfault] at hfollow
    cases hfollow
  | none =>
    rw [hfault] at hfollow
    exact hdown.not_of_walk (h.start path hpath)
      (fun loc hlook => h.looks path hpath (looksAt_route hlook)) hfollow

theorem entry_congr (h : SameOutside hidden paths ground base disk other) (hdown : Downward hidden)
    (hpath : path ∈ paths) : disk.entry path = other.entry path := by
  unfold Disk.entry
  rw [← h.follow_congr hpath fun loc => looksAt_route]
  cases hfollow : disk.follow path .target path.route with
  | error fault => rfl
  | ok loc => simp only [bind, Except.bind, h.same (h.not_of_follow hdown hpath hfollow)]

theorem entryItself_congr (h : SameOutside hidden paths ground base disk other)
    (hdown : Downward hidden)
    (hpath : path ∈ paths) : disk.entryItself path = other.entryItself path := by
  unfold Disk.entryItself
  rw [← h.follow_congr hpath fun loc => looksAt_route]
  cases hfollow : disk.follow path .entry path.route with
  | error fault => rfl
  | ok loc => simp only [bind, Except.bind, h.same (h.not_of_follow hdown hpath hfollow)]

theorem lastStep_congr (h : SameOutside hidden paths ground base disk other) (hpath : path ∈ paths) :
    disk.lastStep path = other.lastStep path := by
  unfold Disk.lastStep
  rw [← h.follow_congr hpath fun loc => looksAt_above]

theorem not_of_lastStep (h : SameOutside hidden paths ground base disk other) (hpath : path ∈ paths)
    (hlast : disk.lastStep path = .ok (dir, some (.into name))) : ¬ hidden (name :: dir) := by
  unfold Disk.lastStep at hlast
  rw [Disk.follow_eq] at hlast
  cases hfault : path.fault? with
  | some fault =>
    rw [hfault] at hlast
    cases hlast
  | none =>
    rw [hfault] at hlast
    cases hwalk : disk.tree.walk .target FileTree.maxLinks (disk.start path)
        (path.steps.dropLast ++ [.slash]) with
    | error fault =>
      rw [hwalk] at hlast
      cases hlast
    | ok above =>
      rw [hwalk] at hlast
      obtain ⟨rfl, hname⟩ := Prod.mk.inj (Except.ok.inj hlast)
      have hlook := @FileTree.looksAt_last _ _ _ _ _ name hwalk
      rw [List.dropLast_append_getLast? _ hname] at hlook
      exact h.looks path hpath hlook

/-- The disks go on to agree when both change in the same way, and no new links come to be. -/
theorem change (h : SameOutside hidden paths ground base disk other)
    (hsame : ∀ {loc}, ¬ hidden loc → tree.find? loc = tree'.find? loc)
    (hlinks : ∀ {loc target}, tree.find? loc = some (.link target) →
      disk.tree.find? loc = some (.link target)) :
    SameOutside hidden paths ground base { disk with tree } { other with tree := tree' } where
  home := h.home
  home' := h.home'
  same := hsame
  start := h.start
  looks path hpath _ hlook := h.looks path hpath (hlook.mono fun _ _ _ => hlinks)
  links hlink := h.links (hlinks hlink)

theorem put (h : SameOutside hidden paths ground base disk other)
    (hd : disk.tree.put? loc .directory = some tree)
    (he : other.tree.put? loc .directory = some tree') :
    SameOutside hidden paths ground base { disk with tree } { other with tree := tree' } := by
  refine h.change (fun hloc => ?_) fun {loc' target} hlink => ?_
  · rw [FileTree.find?_put? hd, FileTree.find?_put? he, h.same hloc]
  · rw [FileTree.find?_put? hd] at hlink
    split at hlink
    · cases hlink
    · exact hlink

theorem remove (h : SameOutside hidden paths ground base disk other) {gone : Location → Prop}
    [DecidablePred gone] {remove : FileTree → FileTree}
    (hremove : ∀ tree loc, (remove tree).find? loc = if gone loc then none else tree.find? loc) :
    SameOutside hidden paths ground base { disk with tree := remove disk.tree }
      { other with tree := remove other.tree } := by
  refine h.change (fun hloc => ?_) fun {loc' target} hlink => ?_
  · rw [hremove, hremove, h.same hloc]
  · rw [hremove] at hlink
    split at hlink
    · cases hlink
    · exact hlink

end SameOutside

end SameOutside

section InStep
variable {hidden : Location → Prop} {paths above : List Path} {path : Path} {disk other : Disk}
  {ground : FileTree} {base dir : Location} {name : String}

theorem SameOutside.run_put (h : SameOutside hidden paths ground base disk other)
    (hdown : Downward hidden)
    (hname : ¬ hidden (name :: dir)) :
    ((DiskM.put (name :: dir) .directory).run.run disk).1 =
      ((DiskM.put (name :: dir) .directory).run.run other).1 ∧
    SameOutside hidden paths ground base ((DiskM.put (name :: dir) .directory).run.run disk).2
      ((DiskM.put (name :: dir) .directory).run.run other).2 := by
  have hsame : disk.tree.put? (name :: dir) .directory = none ↔
      other.tree.put? (name :: dir) .directory = none := by
    simp only [FileTree.put?, h.same hname, h.same (mt hdown.below hname)]
    simp
  rw [DiskM.run_put, DiskM.run_put]
  cases hd : disk.tree.put? (name :: dir) .directory with
  | none =>
    rw [hsame.1 hd]
    exact ⟨rfl, h⟩
  | some tree =>
    cases he : other.tree.put? (name :: dir) .directory with
    | none =>
      rw [hsame.2 he] at hd
      cases hd
    | some tree' => exact ⟨rfl, h.put hd he⟩

theorem SameOutside.makeDirectory (hdown : Downward hidden) (hpath : path ∈ paths) :
    InStep (SameOutside hidden paths ground base) (DiskM.makeDirectory path) fun _ _ => True := by
  intro d e h
  rw [DiskM.run_makeDirectory, DiskM.run_makeDirectory, ← h.lastStep_congr hpath]
  cases hlast : d.lastStep path with
  | error fault => exact ⟨rfl, h, fun _ _ => trivial⟩
  | ok found =>
    obtain ⟨dir, last⟩ := found
    cases last with
    | none => exact ⟨rfl, h, fun _ _ => trivial⟩
    | some step =>
      cases step with
      | here => exact ⟨rfl, h, fun _ _ => trivial⟩
      | up => exact ⟨rfl, h, fun _ _ => trivial⟩
      | slash => exact ⟨rfl, h, fun _ _ => trivial⟩
      | into name =>
        have hname := h.not_of_lastStep hpath hlast
        simp only [← h.same hname]
        split
        · exact ⟨rfl, h, fun _ _ => trivial⟩
        · split
          · exact ⟨rfl, h, fun _ _ => trivial⟩
          · obtain ⟨hresult, hsame⟩ := h.run_put hdown hname
            exact ⟨hresult, hsame, fun _ _ => trivial⟩

theorem SameOutside.makeDirectoryOr {onMissing : DiskM Fault Unit} (hdown : Downward hidden)
    (hpath : path ∈ paths)
    (hmissing : InStep (SameOutside hidden paths ground base) onMissing fun _ _ => True) :
    InStep (SameOutside hidden paths ground base) (DiskM.makeDirectoryOr path onMissing)
      fun _ _ => True := by
  unfold DiskM.makeDirectoryOr
  split
  · exact .pure fun _ => trivial
  · refine .tryCatch (makeDirectory hdown hpath) fun d e fault h _ => ?_
    split
    · exact hmissing
    · refine .unless (fun d e h => ?_) fun _ _ _ _ => trivial
      rw [Disk.isDirectory, Disk.isDirectory, h.entry_congr hdown hpath]

theorem SameOutside.makeDirectories (hdown : Downward hidden) (hpath : path ∈ paths)
    (hancestors : ∀ parent ∈ path.ancestors, parent ∈ paths) :
    InStep (SameOutside hidden paths ground base) (DiskM.makeDirectories path) fun _ _ => True := by
  unfold DiskM.makeDirectories
  generalize path.ancestors = above at hancestors
  induction above generalizing path with
  | nil => exact makeDirectoryOr hdown hpath .throw
  | cons parent above ih =>
    obtain ⟨hparent, habove⟩ := List.forall_mem_cons.1 hancestors
    exact makeDirectoryOr hdown hpath (.bind (ih hparent habove) fun _ _ _ =>
      makeDirectoryOr hdown hpath .throw)

theorem SameOutside.removeAll (hdown : Downward hidden) (hpath : path ∈ paths) :
    InStep (SameOutside hidden paths ground base) (DiskM.removeAll path) fun _ _ => True := by
  have herase : ∀ loc, InStep (SameOutside hidden paths ground base)
      (modify fun disk => { disk with tree := disk.tree.erase loc } : DiskM Fault Unit)
      fun _ _ => True := by
    refine fun loc => .modify fun d e h => ?_
    rcases eq_or_ne loc [] with rfl | hne
    · exact @SameOutside.remove _ _ _ _ _ _ h (· ≠ []) _ (FileTree.erase · []) fun tree loc => by
        simp [FileTree.erase, FileTree.find?_without]
    · exact h.remove fun _ _ => FileTree.find?_erase hne
  refine .bind (Q := fun _ _ => True) (.ofDisk (fun d e h => h.entryItself_congr hdown hpath)
    fun _ _ _ _ _ => trivial) ?_
  rintro ⟨loc, entry⟩ - -
  cases entry with
  | link target => exact herase loc
  | file content => exact .throw
  | directory =>
    refine .bind (.modify fun d e h => h.remove fun _ _ => FileTree.find?_eraseBelow) fun _ _ _ => ?_
    refine .get_bind (fun d e h => by rw [h.lastStep_congr hpath]) fun d e h => ?_
    split
    · exact .pure fun _ => trivial
    · exact .throw
    · split
      · exact herase loc
      · exact .throw
    · exact .throw
    · exact .throw

end InStep

/-- Disks that agree outside what a path never leads to go on to agree about the directories above
it. -/
theorem SameOutside.of_path {hidden : Location → Prop} {path : Path} {base : Location}
    {ground : FileTree} {disk other : Disk}
    (h : SameOutside hidden [path] ground base disk other) :
    SameOutside hidden (path :: path.ancestors) ground base disk other := by
  have hparent : ∀ parent ∈ path.ancestors, disk.start parent = disk.start path ∧
      ∃ n, parent.steps = path.plainSteps.take n := by
    intro parent hmem
    obtain ⟨n, -, rfl⟩ := List.mem_map.1 hmem
    have hpieces : ∀ step ∈ path.plainSteps.take n, step.IsPiece := by
      intro step hstep
      have hplain := List.mem_of_mem_take hstep
      rw [Path.plainSteps_eq] at hplain
      exact Path.isPiece_of_mem_steps (Path.mem_of_mem_plain hplain)
    rw [Disk.start, Disk.start, Path.isAbsolute_ofSteps hpieces, Path.steps_ofSteps hpieces]
    exact ⟨rfl, n, rfl⟩
  have hself := List.mem_singleton_self path
  refine ⟨h.home, h.home', h.same, List.forall_mem_cons.2 ⟨h.start path hself, fun parent hmem => ?_⟩,
    List.forall_mem_cons.2 ⟨h.looks path hself, fun parent hmem loc hlook => ?_⟩, h.links⟩
  · rw [(hparent parent hmem).1]
    exact h.start path hself
  · obtain ⟨hstart, n, hsteps⟩ := hparent parent hmem
    rw [hstart, hsteps] at hlook
    refine h.looks path hself ?_
    rw [← @FileTree.looksAt_plain _ _ _ _ _ path.isAbsolute, ← Path.plainSteps_eq,
      ← List.take_append_drop n path.plainSteps]
    exact hlook.append

end Unbundle.Files
