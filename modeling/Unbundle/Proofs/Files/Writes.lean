import Mathlib.Data.List.Induction
import Unbundle.Proofs.Files.InStep
import Unbundle.Proofs.Files.Leads

/-! Directories made and files written on two disks side by side. When both disks agree about the
names in a path, and stay related whatever is put there, writing to the path is in step. -/

namespace Unbundle.Files
open FileTree (Along)

/-- Each of two related disks has the directories and links of one of some trees. -/
structure Grounded (R : Disk → Disk → Prop) (grounds : List FileTree) (home : Location) : Prop where
  first : ∀ {d e}, R d e → d.Over grounds home
  second : ∀ {d e}, R d e → e.Over grounds home

/-- Locations where two related disks can be written to: they agree about them, no link is there,
and putting the same on both leaves them related. -/
structure Writable (R : Disk → Disk → Prop) (A : Location → Prop) : Prop where
  agrees : ∀ {d e loc}, R d e → A loc → d.tree.Agrees e.tree loc
  put : ∀ {d e loc entry t u}, R d e → A loc → (∀ target, entry ≠ .link target) →
    d.tree.put? loc entry = some t → e.tree.put? loc entry = some u →
    R { d with tree := t } { e with tree := u }
  written : ∀ {d e loc}, R d e → A loc →
    R { d with written := loc :: d.written } { e with written := loc :: e.written }

section Runs
variable {disk : Disk} {path : Path} {loc : Location} {entry : Entry} {onMissing : DiskM Fault Unit}

theorem DiskM.run_put : (DiskM.put loc entry).run.run disk =
    match disk.tree.put? loc entry with
    | some tree => (.ok (), { disk with tree })
    | none => (.error .notFound, disk) := by
  unfold DiskM.put
  rw [run_bind, run_get]
  simp only
  cases disk.tree.put? loc entry <;> rfl

theorem DiskM.run_unless {ε : Type} {check : Disk → Bool} {fault : ε} :
    (get >>= fun disk : Disk =>
      if check disk = true then (pure () : DiskM ε Unit) else throw fault).run.run disk =
      (if check disk = true then .ok () else .error fault, disk) := by
  change (if check disk = true then (pure () : DiskM ε Unit) else throw fault).run.run disk = _
  split
  · rfl
  · rfl

theorem DiskM.run_makeDirectory : (makeDirectory path).run.run disk =
    match disk.lastStep path with
    | .error fault => (.error fault, disk)
    | .ok (dir, some (.into name)) =>
      if maxNameBytes < name.utf8ByteSize then (.error .nameTooLong, disk)
      else if (disk.tree.find? (name :: dir)).isSome then (.error .alreadyExists, disk)
      else (DiskM.put (name :: dir) .directory).run.run disk
    | .ok _ => (.error .alreadyExists, disk) := by
  unfold makeDirectory
  rw [run_bind, run_ofDisk]
  cases disk.lastStep path with
  | error fault => rfl
  | ok last =>
    obtain ⟨dir, last⟩ := last
    cases last with
    | none => rfl
    | some step =>
      cases step with
      | here => rfl
      | up => rfl
      | slash => rfl
      | into name =>
        simp only
        by_cases hsize : maxNameBytes < name.utf8ByteSize
        · simp only [hsize, if_true]
          rfl
        · simp only [hsize, if_false]
          rw [run_bind, run_get]
          simp only
          split
          · rfl
          · rfl

end Runs

section Names
variable {path : Path} {grounds : List FileTree} {home dir : Location} {names : List String}
  {name : String} {disk : Disk}

theorem Path.fault?_ne_notFound (h : path.isEmpty = false) : path.fault? ≠ some .notFound := by
  unfold fault?
  simp only [h, Bool.false_eq_true, if_false]
  repeat' split
  all_goals simp

theorem Path.isFileName_of_mem_steps (h : .into name ∈ path.steps) (hfault : path.fault? = none)
    (hsize : ¬ maxNameBytes < name.utf8ByteSize) : isFileName name = true := by
  have hname : IsName name := isPiece_of_mem_steps h
  have hnul : '\x00' ∉ name.toList := by
    intro hmem
    simp only [steps, List.mem_map, List.mem_filter] at h
    obtain ⟨piece, ⟨hpiece, -⟩, heq⟩ := h
    have hpieceName : String.ofList piece = name := by
      unfold Step.ofName at heq
      split at heq
      · cases heq
      · split at heq
        · cases heq
        · exact Step.into.inj heq
    have htext : '\x00' ∈ path.text.toList :=
      (mem_of_mem_pieces hpiece (by simpa [← hpieceName] using hmem)).1
    simp [fault?, htext] at hfault
  simp [isFileName, hname.nonempty, hname.notHere, hname.notUp, hname.noSlash, hnul,
    Nat.not_lt.1 hsize]

theorem Path.Leads.mem_steps (h : path.Leads grounds home dir (names ++ [name])) :
    .into name ∈ path.steps := by
  obtain ⟨steps, hsteps, -⟩ := h.walk
  simp [hsteps]

theorem Path.Leads.isEmpty (h : path.Leads grounds home dir (names ++ [name])) :
    path.isEmpty = false :=
  isEmpty_eq_false (List.ne_nil_of_mem h.mem_steps)

theorem Path.Leads.makeDirectory_ne_notFound (h : path.Leads grounds home dir [name])
    (hdisk : disk.Over grounds home) :
    ((DiskM.makeDirectory path).run.run disk).1 ≠ .error .notFound := by
  have hleads : path.Leads grounds home dir ([] ++ [name]) := h
  obtain ⟨left, hlast⟩ := hleads.exists_lastStep_eq hdisk
  have hmem := hleads.mem_steps
  rw [List.map_nil, List.nil_append, FileTree.walk_slash, FileTree.walk_nil] at hlast
  rw [DiskM.run_makeDirectory, hlast]
  cases hfault : path.fault? with
  | some fault =>
    have hne := fault?_ne_notFound hleads.isEmpty
    rw [hfault] at hne
    simpa using hne
  | none =>
    simp only [Except.map]
    split
    · simp
    · next hsize =>
      split
      · simp
      · next hfind =>
        rw [DiskM.run_put]
        cases hput : disk.tree.put? (name :: dir) .directory with
        | some tree => simp
        | none =>
          have hdir := h.find? hdisk
          have hfile := isFileName_of_mem_steps hmem hfault hsize
          have hnone : disk.tree.find? (name :: dir) = none := by simpa using hfind
          simp [FileTree.put?, hdir, hnone, hfile] at hput

end Names

section InStep
variable {R : Disk → Disk → Prop} {A : Location → Prop} {grounds : List FileTree}
  {home dir : Location} {path : Path} {names : List String} {name : String}

theorem InStep.put {entry : Entry} (hA : Writable R A) (hloc : A (name :: dir))
    (hdir : ∀ {d e}, R d e → d.tree.find? dir = e.tree.find? dir)
    (hentry : ∀ target, entry ≠ .link target) :
    InStep R (DiskM.put (name :: dir) entry) fun _ disk =>
      disk.tree.find? (name :: dir) = some entry := by
  intro d e hR
  have hsame : d.tree.put? (name :: dir) entry = none ↔ e.tree.put? (name :: dir) entry = none := by
    simp only [FileTree.put?, hdir hR, (hA.agrees hR hloc).1]
    simp
  rw [DiskM.run_put, DiskM.run_put]
  cases hd : d.tree.put? (name :: dir) entry with
  | none =>
    rw [hsame.1 hd]
    exact ⟨rfl, hR, by simp⟩
  | some t =>
    cases he : e.tree.put? (name :: dir) entry with
    | none =>
      rw [hsame.2 he] at hd
      cases hd
    | some u =>
      refine ⟨rfl, hA.put hR hloc hentry hd he, fun _ _ => ?_⟩
      change t.find? (name :: dir) = some entry
      rw [FileTree.find?_put? hd, if_pos rfl]

theorem InStep.unless {ε : Type} {check : Disk → Bool} {fault : ε} {Q : Unit → Disk → Prop}
    (heq : ∀ d e, R d e → check d = check e) (h : ∀ d e, R d e → check d = true → Q () d) :
    InStep R (get >>= fun disk =>
      if check disk = true then (Pure.pure () : DiskM ε Unit) else MonadExcept.throw fault) Q := by
  intro d e hR
  rw [DiskM.run_unless, DiskM.run_unless, ← heq d e hR]
  cases hcheck : check d with
  | false => exact ⟨rfl, hR, fun _ h => nomatch h⟩
  | true => exact ⟨rfl, hR, fun _ _ => h d e hR hcheck⟩

theorem Writable.find?_above (hA : Writable R A) (hground : Grounded R grounds home)
    (hpath : path.Leads grounds home dir (names ++ [name])) (hnames : Along A dir (names ++ [name]))
    {d e : Disk} (hR : R d e) :
    d.tree.find? (names.reverse ++ dir) = e.tree.find? (names.reverse ++ dir) :=
  hpath.find?_congr (hground.first hR) (hground.second hR)
    ((FileTree.along_append.1 hnames).1.imp fun _ h => hA.agrees hR h)

theorem InStep.makeDirectory (hA : Writable R A) (hground : Grounded R grounds home)
    (hpath : path.Leads grounds home dir (names ++ [name]))
    (hnames : Along A dir (names ++ [name])) :
    InStep R (DiskM.makeDirectory path) fun _ disk =>
      disk.tree.find? (name :: (names.reverse ++ dir)) = some .directory := by
  have hinit : Along A dir names := (FileTree.along_append.1 hnames).1
  refine .bind (Q := fun last _ => last = (names.reverse ++ dir, some (.into name)))
    (.ofDisk (fun d e hR => ?_) (fun d e last hR hlast => ?_)) ?_
  · exact hpath.lastStep_congr (hground.first hR) (hground.second hR)
      (hinit.imp fun _ h => hA.agrees hR h)
  · obtain ⟨above, last⟩ := last
    obtain ⟨rfl, rfl⟩ := hpath.lastStep_eq_ok (hground.first hR)
      (hinit.imp fun _ h => (hA.agrees hR h).2) hlast
    rfl
  · rintro _ _ rfl
    have hmade : InStep R (DiskM.put (name :: (names.reverse ++ dir)) .directory) fun _ disk =>
        disk.tree.find? (name :: (names.reverse ++ dir)) = some .directory :=
      .put hA hnames.last (fun hR => hA.find?_above hground hpath hnames hR) (by simp)
    simp only
    split
    · exact .bind (Q := fun _ _ => False) .throw nofun
    · refine .get_bind (fun d e hR => ?_) fun d e hR => ?_
      · rw [(hA.agrees hR hnames.last).1]
      · split
        · exact .bind (Q := fun _ _ => False) .throw nofun
        · exact hmade

/-- Either the directory is made, or it is there, or one above it is missing. -/
theorem InStep.makeDirectoryOr {onMissing : DiskM Fault Unit} (hA : Writable R A)
    (hground : Grounded R grounds home) (hpath : path.Leads grounds home dir (names ++ [name]))
    (hnames : Along A dir (names ++ [name]))
    (hmissing : names ≠ [] → InStep R onMissing fun _ disk =>
      disk.tree.find? (name :: (names.reverse ++ dir)) = some .directory) :
    InStep R (DiskM.makeDirectoryOr path onMissing) fun _ disk =>
      disk.tree.find? (name :: (names.reverse ++ dir)) = some .directory := by
  have hagrees : ∀ {d e}, R d e → Along (d.tree.Agrees e.tree) dir (names ++ [name]) :=
    fun hR => hnames.imp fun _ h => hA.agrees hR h
  unfold DiskM.makeDirectoryOr
  rw [if_neg (by simp [hpath.isEmpty])]
  refine .tryCatch (.makeDirectory hA hground hpath hnames) fun d e fault hR hfault => ?_
  split
  · refine hmissing ?_
    rintro rfl
    exact hpath.makeDirectory_ne_notFound (hground.first hR) hfault
  · refine .unless (fun d e hR => ?_) fun d e hR hdirectory => ?_
    · unfold Disk.isDirectory
      rw [hpath.entry_congr (hground.first hR) (hground.second hR) (hagrees hR)]
    · unfold Disk.isDirectory at hdirectory
      split at hdirectory
      · next loc hfound =>
        obtain ⟨rfl, hfind⟩ := hpath.entry_eq_ok (hground.first hR)
          ((hagrees hR).imp fun _ h => h.2) hfound
        simpa using hfind
      · cases hdirectory

end InStep

/-- The paths of the directories above steps, the nearest first. -/
def Path.climb (absolute : Bool) (steps : List Step) : List Path :=
  (List.range steps.length).reverse.map fun n => ofSteps absolute (steps.take n)

/-- A path that leads through names, and one that leads to each directory above it in which one of
the names is looked for. -/
inductive Climbs (grounds : List FileTree) (home dir : Location) :
    Path → List String → List Path → Prop where
  | last {path name above} (leads : path.Leads grounds home dir [name]) :
      Climbs grounds home dir path [name] above
  | next {path parent names name above} (leads : path.Leads grounds home dir (names ++ [name]))
      (more : Climbs grounds home dir parent names above) :
      Climbs grounds home dir path (names ++ [name]) (parent :: above)

section Directories
variable {R : Disk → Disk → Prop} {A : Location → Prop} {grounds : List FileTree}
  {home dir : Location} {path : Path} {names : List String} {absolute : Bool}
  {steps : List Step} {above : List Path}

theorem Path.climb_concat (step : Step) :
    climb absolute (steps ++ [step]) = ofSteps absolute steps :: climb absolute steps := by
  have htake : ∀ n ∈ (List.range steps.length).reverse,
      ofSteps absolute ((steps ++ [step]).take n) = ofSteps absolute (steps.take n) := by
    intro n hn
    have hlt : n < steps.length := by simpa using hn
    rw [List.take_append_of_le_length (Nat.le_of_lt hlt)]
  rw [climb, List.length_append, List.length_singleton, List.range_succ, List.reverse_append,
    List.reverse_singleton, List.singleton_append, List.map_cons, List.map_congr_left htake,
    List.take_left]
  rfl

theorem Path.Leads.climbs_climb (hfound : ∀ ground ∈ grounds, ground.find? dir = some .directory)
    (hpieces : ∀ step ∈ steps ++ names.map .into, step.IsPiece)
    (hway : ∀ ground ∈ grounds, ∃ left,
      ground.Way FileTree.maxLinks (if absolute then [] else home) steps left dir)
    (h : path.Leads grounds home dir names) (hnames : names ≠ []) :
    Climbs grounds home dir path names (climb absolute (steps ++ names.map .into)) := by
  induction names using List.reverseRecOn generalizing path with
  | nil => exact absurd rfl hnames
  | append_singleton names name ih =>
    have hsplit : steps ++ (names ++ [name]).map Step.into =
        (steps ++ names.map .into) ++ [.into name] := by simp
    rw [hsplit] at hpieces ⊢
    have hinit : ∀ step ∈ steps ++ names.map .into, step.IsPiece :=
      fun step hstep => hpieces step (List.mem_append_left _ hstep)
    rw [climb_concat]
    rcases names with - | ⟨first, rest⟩
    · exact .last h
    · refine .next h (ih hinit ⟨hfound, ?_⟩ (by simp))
      exact ⟨steps, steps_ofSteps hinit, by rwa [isAbsolute_ofSteps hinit]⟩

theorem Path.Leads.climbs (h : path.Leads grounds home dir names) (hnames : names ≠ []) :
    Climbs grounds home dir path names path.ancestors := by
  obtain ⟨hfound, steps, hsteps, hway⟩ := id h
  have hplain : path.plainSteps = plain path.isAbsolute steps ++ names.map .into := by
    rw [plainSteps_eq, hsteps, plain_append_into]
  have hpieces : ∀ step ∈ plain path.isAbsolute steps ++ names.map .into, step.IsPiece := by
    intro step hstep
    rw [← plain_append_into, ← hsteps] at hstep
    exact isPiece_of_mem_steps (mem_of_mem_plain hstep)
  have hancestors : path.ancestors = climb path.isAbsolute path.plainSteps := rfl
  rw [hancestors, hplain]
  refine climbs_climb hfound hpieces (fun ground hground => ?_) h hnames
  obtain ⟨left, hway⟩ := hway ground hground
  exact ⟨left, hway.plain⟩

theorem InStep.makeDirectoriesBelow (hA : Writable R A) (hground : Grounded R grounds home)
    (h : Climbs grounds home dir path names above) (hnames : Along A dir names) :
    InStep R (DiskM.makeDirectoriesBelow path above) fun _ disk =>
      disk.tree.find? (names.reverse ++ dir) = some .directory := by
  induction h with
  | @last path name above leads =>
    have hleads : path.Leads grounds home dir ([] ++ [name]) := leads
    cases above with
    | nil => exact .makeDirectoryOr hA hground hleads hnames (absurd rfl)
    | cons parent above => exact .makeDirectoryOr hA hground hleads hnames (absurd rfl)
  | @next path parent names name above leads more ih =>
    rw [List.reverse_append, List.reverse_singleton, List.singleton_append, List.cons_append]
    refine .makeDirectoryOr hA hground leads hnames fun _ => ?_
    refine .bind (ih (FileTree.along_append.1 hnames).1) fun _ _ _ => ?_
    exact .makeDirectoryOr hA hground leads hnames fun _ => .throw

theorem InStep.makeDirectories (hA : Writable R A) (hground : Grounded R grounds home)
    (h : path.Leads grounds home dir names) (hnames : Along A dir names) (hne : names ≠ []) :
    InStep R (DiskM.makeDirectories path) fun _ disk =>
      disk.tree.find? (names.reverse ++ dir) = some .directory :=
  .makeDirectoriesBelow hA hground (h.climbs hne) hnames

end Directories

section Files
variable {R : Disk → Disk → Prop} {A : Location → Prop} {grounds : List FileTree}
  {home dir loc : Location} {path source : Path} {names : List String} {name : String}
  {disk other : Disk}

theorem Path.Leads.target_congr (h : path.Leads grounds home dir (names ++ [name]))
    (hdisk : disk.Over grounds home) (hother : other.Over grounds home)
    (hnames : Along (disk.tree.Agrees other.tree) dir (names ++ [name])) :
    disk.target path = other.target path := by
  obtain ⟨slashes, hroute, hslashes⟩ := path.exists_route_eq
  have hne : names ++ [name] ≠ [] := by simp
  unfold Disk.target
  rw [hroute, ← h.follow_congr hdisk hother hslashes (Or.inr hne) hnames]
  cases hfollow : disk.follow path .writing (path.steps ++ slashes) with
  | error fault => rfl
  | ok loc =>
    obtain rfl := h.follow_eq_ok hdisk hslashes (Or.inr hne) (hnames.imp fun _ h => h.2) hfollow
    have hsame : disk.tree.isDirectory ((names ++ [name]).reverse ++ dir) =
        other.tree.isDirectory ((names ++ [name]).reverse ++ dir) := by
      unfold FileTree.isDirectory
      rw [h.find?_congr hdisk hother hnames]
    simp only [bind, Except.bind, hsame]

theorem Path.Leads.target_eq_ok (h : path.Leads grounds home dir (names ++ [name]))
    (hdisk : disk.Over grounds home) (hnames : Along disk.tree.NoLink dir (names ++ [name]))
    (htarget : disk.target path = .ok loc) : loc = name :: (names.reverse ++ dir) := by
  obtain ⟨slashes, hroute, hslashes⟩ := path.exists_route_eq
  unfold Disk.target at htarget
  rw [hroute] at htarget
  cases hfollow : disk.follow path .writing (path.steps ++ slashes) with
  | error fault => simp [hfollow, bind, Except.bind] at htarget
  | ok found =>
    obtain rfl := h.follow_eq_ok hdisk hslashes (Or.inr (by simp)) hnames hfollow
    simp only [hfollow, bind, Except.bind] at htarget
    split at htarget
    · cases htarget
    · simpa using (Except.ok.inj htarget).symm

theorem InStep.openForWriting (hA : Writable R A) (hground : Grounded R grounds home)
    (h : path.Leads grounds home dir (names ++ [name])) (hnames : Along A dir (names ++ [name])) :
    InStep R (DiskM.openForWriting path) fun found _ => found = name :: (names.reverse ++ dir) := by
  refine .bind (Q := fun found _ => found = name :: (names.reverse ++ dir))
    (.ofDisk (fun d e hR => ?_) fun d e found hR htarget => ?_) ?_
  · exact h.target_congr (hground.first hR) (hground.second hR)
      (hnames.imp fun _ h => hA.agrees hR h)
  · exact h.target_eq_ok (hground.first hR) (hnames.imp fun _ h => (hA.agrees hR h).2) htarget
  · rintro _ _ rfl
    refine .bind (.put hA hnames.last (fun hR => hA.find?_above hground h hnames hR) (by simp))
      fun _ _ _ => ?_
    intro d e hR
    exact ⟨rfl, hA.written hR hnames.last, fun a ha => (Except.ok.inj ha).symm⟩

theorem InStep.writeText (hA : Writable R A) (hground : Grounded R grounds home)
    (h : path.Leads grounds home dir (names ++ [name])) (hnames : Along A dir (names ++ [name]))
    (text : String) : InStep R (DiskM.writeText path text) fun _ _ => True := by
  refine .bind (.openForWriting hA hground h hnames) ?_
  rintro _ _ rfl
  exact (InStep.put hA hnames.last (fun hR => hA.find?_above hground h hnames hR) (by simp)).imp
    fun _ _ _ => trivial

theorem InStep.copyFile (hA : Writable R A) (hground : Grounded R grounds home)
    (h : path.Leads grounds home dir (names ++ [name])) (hnames : Along A dir (names ++ [name]))
    (hentry : ∀ d e, R d e → d.entry source = e.entry source)
    (hloc : ∀ d e loc entry, R d e → d.entry source = .ok (loc, entry) →
      ∀ d' e', R d' e' → d'.tree.Agrees e'.tree loc) :
    InStep R (DiskM.copyFile source path) fun _ _ => True := by
  refine .bind (Q := fun found _ => ∀ d' e', R d' e' → d'.tree.Agrees e'.tree found.1)
    (.ofDisk hentry fun d e found hR hfound => hloc d e found.1 found.2 hR hfound) ?_
  rintro ⟨loc, entry⟩ _ hagrees
  simp only at hagrees ⊢
  split
  · exact .bind (Q := fun _ _ => False) .throw nofun
  · refine .bind (.openForWriting hA hground h hnames) ?_
    rintro _ _ rfl
    refine .get_bind (fun d e hR => by rw [(hagrees d e hR).1]) fun d e hR => ?_
    split
    · next entry hfind =>
      refine (InStep.put hA hnames.last (fun hR => hA.find?_above hground h hnames hR) ?_).imp
        fun _ _ _ => trivial
      rintro target rfl
      exact (hagrees d e hR).2 target hfind
    · exact .throw

end Files

end Unbundle.Files
