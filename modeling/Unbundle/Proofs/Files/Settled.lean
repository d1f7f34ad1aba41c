import Unbundle.Proofs.Files.Deeds

/-! Work done again. A tree grows while directories are made and files are written: what is a file
or a directory stays one. So work that came to a result comes to it again on whatever its tree has
grown to, and all that it does then is to write the same files over. -/

namespace Unbundle.Files
open FileTree (Along Passed)

/-- Directories and links stay what they are, and files stay files. -/
structure Grows (tree grown : FileTree) : Prop where
  keeps : grown.Keeps tree
  files : ∀ {loc content}, tree.find? loc = some (.file content) →
    ∃ other, grown.find? loc = some (.file other)

/-- What was written last at each location. -/
abbrev Log := Location → Option ByteArray

/-- What is at a location when the files of a log are written over. -/
def Log.over (log : Log) (tree : FileTree) (loc : Location) : Option Entry :=
  match log loc with
  | some content => some (.file content)
  | none => tree.find? loc

def Log.append (log more : Log) : Log := fun loc => (more loc).or (log loc)

/-- The work, done on one of some disks, leaves what its log says. Done again on one of them that
has grown from there, it comes to the same result and writes the files of its log over. -/
structure Settled {α : Type} (among : Disk → Prop) (work : StateM Disk α) (d : Disk) (log : Log) :
    Prop where
  stays : among (work.run d).2
  grows : Grows d.tree (work.run d).2.tree
  written : ∀ {loc content}, log loc = some content →
    (work.run d).2.tree.find? loc = some (.file content)
  kept : ∀ {loc entry}, log loc = none → d.tree.find? loc = some entry →
    (work.run d).2.tree.find? loc = some entry
  again : ∀ {e}, among e → Grows (work.run d).2.tree e.tree →
    (work.run e).1 = (work.run d).1 ∧ among (work.run e).2 ∧
    ∀ loc, (work.run e).2.tree.find? loc = log.over e.tree loc

section Settled
variable {α β : Type} {among : Disk → Prop} {work : StateM Disk α} {next : α → StateM Disk β}
  {d : Disk} {log more : Log} {tree grown later : FileTree} {loc : Location}

theorem Grows.refl (tree : FileTree) : Grows tree tree :=
  ⟨fun _ => ⟨id, fun _ => id⟩, fun h => ⟨_, h⟩⟩

theorem Grows.trans (h : Grows tree grown) (h' : Grows grown later) : Grows tree later where
  keeps loc := ⟨fun hfound => (h'.keeps loc).1 ((h.keeps loc).1 hfound),
    fun target hfound => (h'.keeps loc).2 target ((h.keeps loc).2 target hfound)⟩
  files hfound := by
    obtain ⟨other, hother⟩ := h.files hfound
    exact h'.files hother

theorem Grows.over (h : Grows tree grown)
    (hfiles : ∀ {loc content}, log loc = some content → ∃ other, tree.find? loc = some (.file other))
    (hlater : ∀ loc, later.find? loc = log.over grown loc) : Grows tree later where
  keeps loc := by
    have hnone : ∀ {entry}, tree.find? loc = some entry → (∀ content, entry ≠ .file content) →
        later.find? loc = grown.find? loc := by
      intro entry hfound hentry
      rw [hlater, Log.over]
      split
      · next content hlog =>
        obtain ⟨other, hother⟩ := hfiles hlog
        rw [hfound] at hother
        exact absurd (Option.some.inj hother) (hentry other)
      · rfl
    exact ⟨fun hfound => (hnone hfound nofun).trans ((h.keeps loc).1 hfound),
      fun target hfound => (hnone hfound nofun).trans ((h.keeps loc).2 target hfound)⟩
  files hfound := by
    rename_i loc content
    rw [hlater, Log.over]
    split
    · next other _ => exact ⟨other, rfl⟩
    · exact h.files hfound

theorem Settled.pure {a : α} (hd : among d) : Settled among (pure a) d fun _ => none where
  stays := hd
  grows := .refl _
  written := nofun
  kept _ hfound := hfound
  again he _ := ⟨rfl, he, fun _ => rfl⟩

theorem Settled.bind (h : Settled among work d log)
    (hnext : Settled among (next (work.run d).1) (work.run d).2 more) :
    Settled among (work >>= next) d (log.append more) := by
  have hfiles : ∀ {loc content}, (log.append more) loc = some content →
      ((work >>= next).run d).2.tree.find? loc = some (.file content) := by
    intro loc content hlog
    rw [runState_bind]
    rw [Log.append, Option.or_eq_some_iff] at hlog
    rcases hlog with hmore | ⟨hnone, hlog⟩
    · exact hnext.written hmore
    · exact hnext.kept hnone (h.written hlog)
  refine ⟨?_, ?_, hfiles, fun hlog hfound => ?_, fun {e} he hgrown => ?_⟩
  · rw [runState_bind]
    exact hnext.stays
  · rw [runState_bind]
    exact h.grows.trans hnext.grows
  · rw [runState_bind]
    obtain ⟨hmore, hlog⟩ := Option.or_eq_none_iff.1 hlog
    exact hnext.kept hmore (h.kept hlog hfound)
  · rw [runState_bind] at hgrown ⊢
    obtain ⟨hresult, hamong, htree⟩ := h.again he (hnext.grows.trans hgrown)
    -- the files that the first part writes over are files by the end of the second one
    have hlater := hgrown.over (fun hlog => hnext.grows.files (h.written hlog)) htree
    obtain ⟨hresult', hamong', htree'⟩ := hnext.again hamong hlater
    rw [runState_bind, hresult]
    refine ⟨hresult', hamong', fun loc => ?_⟩
    rw [htree', Log.over, Log.over, Log.append]
    cases more loc with
    | some content => rfl
    | none => exact htree loc

theorem Settled.exists_bind {work : Work α} {next : α → Work β} (h : Settled among work.run d log)
    (hnext : ∀ a, (work.run.run d).1 = .ok a →
      ∃ more, Settled among (next a).run (work.run.run d).2 more) :
    ∃ log, Settled among (work >>= next).run d log := by
  have hbind : (work >>= next).run = (work.run >>= ExceptT.bindCont next) := rfl
  have hrest : ∃ more, Settled among (ExceptT.bindCont next (work.run.run d).1)
      (work.run.run d).2 more := by
    cases hresult : (work.run.run d).1 with
    | ok a => exact hnext a hresult
    | error failure => exact ⟨_, .pure h.stays⟩
  obtain ⟨more, hmore⟩ := hrest
  rw [hbind]
  exact ⟨_, h.bind hmore⟩

/-- Done once more, the work leaves what is there. -/
theorem Settled.tree_eq (h : Settled among work d log) {e : Disk} (he : among e)
    (htree : e.tree = (work.run d).2.tree) :
    (work.run e).1 = (work.run d).1 ∧ (work.run e).2.tree = e.tree := by
  obtain ⟨hresult, -, hover⟩ := h.again he (htree ▸ .refl _)
  refine ⟨hresult, FileTree.ext fun loc => ?_⟩
  rw [hover, Log.over]
  split
  · next content hlog => rw [htree, h.written hlog]
  · rfl

end Settled

section Deeds
variable {root : Path} {base dir : Location} {d e : Disk} {names : List String} {name : String}
  {blame : Path} {content : ByteArray} {deed : Deed} {deeds : List Deed} {made : List (List String)}
  {tree grown : FileTree}

theorem FileTree.isFileName_eq_false_of_put? {entry : Entry}
    (hdir : tree.find? dir = some .directory) (hfree : tree.find? (name :: dir) = none)
    (hput : tree.put? (name :: dir) entry = none) : isFileName name = false := by
  cases hname : isFileName name with
  | false => rfl
  | true =>
    obtain ⟨made, hmade⟩ := exists_put? entry hdir (by simp [hfree]) hname
    rw [hput] at hmade
    cases hmade

theorem FileTree.absent_of_isFileName_eq_false {entry : Entry} (h : isFileName name = false) :
    tree.find? (name :: dir) = none ∧ tree.put? (name :: dir) entry = none := by
  refine ⟨?_, by simp [put?, h]⟩
  cases hfind : tree.find? (name :: dir) with
  | none => rfl
  | some other =>
    have hnamed := isFileName_of_find? hfind
    rw [h] at hnamed
    cases hnamed

/-- Directories are not made again, and where they could not be made they cannot. -/
theorem FileTree.pave_again (hdir : tree.find? dir = some .directory)
    (hgrown : Grows (tree.pave dir names).2 grown) :
    grown.pave dir names = ((tree.pave dir names).1, grown) := by
  induction names generalizing tree dir with
  | nil => rfl
  | cons name names ih =>
    rw [pave] at hgrown ⊢
    rw [pave]
    split
    · rfl
    · next hsize =>
      rw [if_neg hsize] at hgrown
      cases hfind : tree.find? (name :: dir) with
      | none =>
        rw [hfind] at hgrown
        simp only at hgrown ⊢
        cases hput : tree.put? (name :: dir) .directory with
        | none =>
          -- nothing can have this name
          have hname := isFileName_eq_false_of_put? hdir hfind hput
          obtain ⟨hnone, hput'⟩ :=
            @absent_of_isFileName_eq_false dir name grown .directory hname
          simp [hnone, hput']
        | some made =>
          rw [hput] at hgrown
          have hmade : made.find? (name :: dir) = some .directory := by
            rw [find?_put? hput, if_pos rfl]
          have hfound := (hgrown.keeps _).1 (find?_pave_of_some hmade hmade)
          rw [hfound]
          exact ih hmade hgrown
      | some entry =>
        rw [hfind] at hgrown
        cases entry with
        | file content =>
          obtain ⟨other, hother⟩ := hgrown.files hfind
          rw [hother]
        | directory =>
          have hfound := (hgrown.keeps _).1 (find?_pave_of_some hfind hfind)
          rw [hfound]
          exact ih hfind hgrown
        | link target =>
          rw [(hgrown.keeps _).2 target hfind]

theorem FileTree.grows_pave (hdir : tree.find? dir = some .directory) :
    Grows tree (tree.pave dir names).2 :=
  ⟨keeps_pave hdir, fun hfound => ⟨_, find?_pave_of_some hdir hfound⟩⟩

theorem FileTree.grows_put? {loc : Location}
    (h : tree.put? loc (.file content) = some grown) (hlink : tree.NoLink loc)
    (hfree : tree.find? loc ≠ some .directory) : Grows tree grown where
  keeps other := by
    rw [find?_put? h]
    split
    · next heq =>
      exact heq ▸ ⟨fun hfound => absurd hfound hfree, fun _ hfound => absurd hfound (hlink _)⟩
    · exact ⟨id, fun _ => id⟩
  files hfound := by
    rw [find?_put? h]
    split
    · exact ⟨_, rfl⟩
    · exact ⟨_, hfound⟩

/-- What is a reason not to write a file, be it that a directory is in the way, stays one. -/
theorem Path.writeFault?_of_taken {path : Path} {fault : Fault} {taken taken' : Bool}
    (h : path.writeFault? name taken = some fault) (htaken : taken = true → taken' = true) :
    path.writeFault? name taken' = some fault := by
  unfold writeFault? at h ⊢
  cases hfault : path.fault? with
  | some other => simpa [hfault] using h
  | none =>
    simp only [hfault] at h ⊢
    split
    · next hsize => simpa [hsize] using h
    · next hsize =>
      rw [if_neg hsize] at h
      obtain ⟨htrue, heq⟩ := Option.ite_none_right_eq_some.1 h
      rw [if_pos (htaken htrue), heq]

theorem Deed.settled_make (hd : Standing root base d) (hnamed : (Deed.make names).Named) :
    Settled (Standing root base) ((Deed.make names).work root).run d fun _ => none := by
  have hstands : ∀ {e}, Standing root base e →
      Standing root base (((Deed.make names).work root).run.run e).2 := fun he =>
    (Deed.make_congr he he hnamed Deed.within_footprint (.refl _ _ _)).2.standing he
  have hdir : d.tree.find? base = some .directory := hd.leads.find? d.over_self
  cases hfault : (root.joins names).fault? with
  | some fault =>
    have hrun : ∀ {e}, Standing root base e → ((Deed.make names).work root).run.run e =
        (.error (.io (root.joins names) fault), e) := fun he => by rw [he.run_make hnamed, hfault]
    refine ⟨hstands hd, ?_, nofun, fun _ hfound => ?_, fun he _ => ⟨?_, hstands he, fun _ => ?_⟩⟩
    · rw [hrun hd]
      exact .refl _
    · rw [hrun hd]
      exact hfound
    · rw [hrun hd, hrun he]
    · rw [hrun he]
      rfl
  | none =>
    have hrun : ∀ {e}, Standing root base e → ((Deed.make names).work root).run.run e =
        ((e.tree.pave base names).1.mapError (.io (root.joins names)),
          { e with tree := (e.tree.pave base names).2 }) := fun he => by
      rw [he.run_make hnamed, hfault]
    refine ⟨hstands hd, ?_, nofun, fun _ hfound => ?_, fun {e} he hgrown => ?_⟩
    · rw [hrun hd]
      exact FileTree.grows_pave hdir
    · rw [hrun hd]
      exact FileTree.find?_pave_of_some hdir hfound
    · rw [hrun hd] at hgrown
      refine ⟨?_, hstands he, fun _ => ?_⟩
      · rw [hrun hd, hrun he, FileTree.pave_again hdir hgrown]
      · rw [hrun he, FileTree.pave_again hdir hgrown]
        rfl

theorem Deed.standing_write (hd : Standing root base d)
    (hnamed : (Deed.write blame names name content).Named)
    (hdir : d.tree.find? (names.reverse ++ base) = some .directory) :
    Standing root base (((Deed.write blame names name content).work root).run.run d).2 :=
  (Deed.write_congr hd hd hnamed Deed.within_footprint hdir hdir (.refl _ _ _)).2.standing hd

theorem Deed.settled_write_error (hd : Standing root base d)
    (hnamed : (Deed.write blame names name content).Named)
    (hdir : d.tree.find? (names.reverse ++ base) = some .directory) {fault : Fault}
    (hfault : ((root.joins names).join name).writeFault? name
      (d.tree.isDirectory (name :: (names.reverse ++ base))) = some fault) :
    Settled (Standing root base) ((Deed.write blame names name content).work root).run d
      fun _ => none := by
  have hrun := hd.run_write_error hnamed hdir hfault
  refine ⟨standing_write hd hnamed hdir, ?_, nofun, fun _ hfound => ?_, fun {e} he hgrown => ?_⟩
  · rw [hrun]
    exact .refl _
  · rw [hrun]
    exact hfound
  · rw [hrun] at hgrown ⊢
    -- a directory in the way stays there
    have hfault' := Path.writeFault?_of_taken hfault fun htaken =>
      decide_eq_true ((hgrown.keeps _).1 (of_decide_eq_true htaken))
    rw [he.run_write_error hnamed ((hgrown.keeps _).1 hdir) hfault']
    exact ⟨rfl, he, fun _ => rfl⟩

theorem Deed.settled_write_ok (hd : Standing root base d)
    (hnamed : (Deed.write blame names name content).Named)
    (hdir : d.tree.find? (names.reverse ++ base) = some .directory)
    (hfault : ((root.joins names).join name).writeFault? name
      (d.tree.isDirectory (name :: (names.reverse ++ base))) = none) :
    Settled (Standing root base) ((Deed.write blame names name content).work root).run d
      fun loc => if loc = name :: (names.reverse ++ base) then some content else none := by
  obtain ⟨hfree, tree, htree, hrun⟩ := hd.exists_run_write hnamed hdir hfault
  have hfind := FileTree.find?_put? htree
  have hkept : ∀ {loc entry}, loc ≠ name :: (names.reverse ++ base) →
      d.tree.find? loc = some entry → tree.find? loc = some entry := fun hne hfound => by
    rw [hfind, if_neg hne.symm, hfound]
  refine ⟨standing_write hd hnamed hdir, ?_, ?_, ?_, fun {e} he hgrown => ?_⟩
  · rw [hrun]
    exact FileTree.grows_put? htree hd.noLink_written hfree
  · intro loc written hlog
    obtain ⟨rfl, heq⟩ := Option.ite_none_right_eq_some.1 hlog
    obtain rfl := Option.some.inj heq
    rw [hrun]
    exact (hfind _).trans (if_pos rfl)
  · intro loc entry hlog hfound
    rw [hrun]
    exact hkept (fun heq => by simp [heq] at hlog) hfound
  · rw [hrun] at hgrown ⊢
    have hthere := (hgrown.keeps _).1 (hkept (List.cons_ne_self _ _).symm hdir)
    obtain ⟨other, hother⟩ := hgrown.files ((hfind _).trans (if_pos rfl))
    have htaken : e.tree.isDirectory (name :: (names.reverse ++ base)) =
        d.tree.isDirectory (name :: (names.reverse ++ base)) := by
      simp [FileTree.isDirectory, hother, hfree]
    obtain ⟨-, tree', htree', hrun'⟩ := he.exists_run_write hnamed hthere (htaken ▸ hfault)
    refine ⟨by rw [hrun'], standing_write he hnamed hthere, fun loc => ?_⟩
    rw [hrun', Log.over]
    simp only
    rw [FileTree.find?_put? htree']
    by_cases heq : loc = name :: (names.reverse ++ base)
    · simp [heq]
    · simp [heq, Ne.symm heq]

theorem Deed.exists_settled (hd : Standing root base d) (hnamed : deed.Named)
    (hfounded : deed.FoundedOn made) (hmade : d.tree.Has base made) :
    ∃ log, Settled (Standing root base) (deed.work root).run d log := by
  cases deed with
  | make names => exact ⟨_, settled_make hd hnamed⟩
  | write blame dir name content =>
    have hdir := hmade dir hfounded
    cases hfault : ((root.joins dir).join name).writeFault? name
        (d.tree.isDirectory (name :: (dir.reverse ++ base))) with
    | some fault => exact ⟨_, settled_write_error hd hnamed hdir hfault⟩
    | none => exact ⟨_, settled_write_ok hd hnamed hdir hfault⟩

theorem exists_settled_perform (hd : Standing root base d) (hnamed : ∀ deed ∈ deeds, deed.Named)
    (hfounded : Founded made deeds) (hmade : d.tree.Has base made) :
    ∃ log, Settled (Standing root base) (perform root deeds).run d log := by
  induction deeds generalizing made d with
  | nil => exact ⟨_, .pure hd⟩
  | cons deed deeds ih =>
    obtain ⟨hdeed, hrest⟩ := List.forall_mem_cons.1 hnamed
    obtain ⟨log, hlog⟩ := Deed.exists_settled hd hdeed hfounded.1 hmade
    have hcons : perform root (deed :: deeds) = (deed.work root >>= fun _ => perform root deeds) :=
      rfl
    rw [hcons]
    refine hlog.exists_bind fun _ hok => ih hlog.stays hrest hfounded.2 ?_
    exact (hmade.keeps hlog.grows.keeps).append (Deed.has_made hd hdeed hok)

end Deeds

end Unbundle.Files
