import Unbundle.Proofs.Files.Contents

/-! Deeds, by which work changes a disk: directories are made and files are written, by names below
one directory. On two disks that agree about the locations that the deeds are concerned with they
come to the same result and leave the same marks. -/

namespace Unbundle.Files
open FileTree (Along Passed)

def Path.joins (path : Path) (names : List String) : Path := names.foldl join path

inductive Deed where
  /-- Makes a directory and the missing ones above it. -/
  | make (names : List String)
  /-- Writes a file in a directory. A fault is recorded at the path to blame. -/
  | write (blame : Path) (dir : List String) (name : String) (content : ByteArray)

namespace Deed

def text (root : Path) (dir : List String) (name text : String) : Deed :=
  .write ((root.joins dir).join name) dir name text.toUTF8

def work (root : Path) : Deed → Work Unit
  | .make names => Work.makeDirectories (root.joins names)
  | .write blame dir name content =>
    Work.at blame (DiskM.writeBytes ((root.joins dir).join name) content)

/-- Whatever a deed names can be joined to a path. -/
def Named : Deed → Prop
  | .make names => names ≠ [] ∧ ∀ name ∈ names, IsName name
  | .write _ dir name _ => (∀ name ∈ dir, IsName name) ∧ IsName name

/-- A file is written in one of the directories that were made. -/
def FoundedOn (made : List (List String)) : Deed → Prop
  | .make _ => True
  | .write _ dir _ _ => dir ∈ made

def made : Deed → List (List String)
  | .make names => [names]
  | .write .. => []

end Deed

def perform (root : Path) (deeds : List Deed) : Work Unit := deeds.forM (Deed.work root)

/-- Each file is written in a directory that was made before. -/
def Founded : List (List String) → List Deed → Prop
  | _, [] => True
  | made, deed :: deeds => deed.FoundedOn made ∧ Founded (deed.made ++ made) deeds

/-- Where directories are made and where files are written, by names below one directory. -/
structure Footprint where
  dirs : List String → Prop
  files : List String → Prop

/-- A deed makes directories and writes files in a footprint alone. -/
def Deed.Within (foot : Footprint) : Deed → Prop
  | .make names => ∀ first, first ≠ [] → first <+: names → foot.dirs first
  | .write _ dir name _ => foot.files (dir ++ [name])

/-- Where deeds of one kind make directories and write files. -/
def Footprint.ofKind (kind : Deed → Prop) : Footprint where
  dirs names := names ≠ [] ∧ ∃ full, kind (.make full) ∧ names <+: full
  files names := ∃ blame dir name content, kind (.write blame dir name content) ∧
    names = dir ++ [name]

theorem Deed.within_ofKind {kind : Deed → Prop} {deed : Deed} (h : kind deed) :
    deed.Within (.ofKind kind) := by
  cases deed with
  | make names => exact fun first hne hfirst => ⟨hne, names, h, hfirst⟩
  | write blame dir name content => exact ⟨blame, dir, name, content, h, rfl⟩

/-- A path leads to a directory of the disk that has no links below it. -/
structure Standing (root : Path) (base : Location) (disk : Disk) : Prop where
  leads : root.Leads [disk.tree] disk.home base []
  noLink : ∀ {loc}, base <:+ loc → disk.tree.NoLink loc

def FileTree.Free (tree : FileTree) (loc : Location) : Prop :=
  tree.find? loc = none ∨ ∃ content, tree.find? loc = some (.file content)

namespace Footprint

/-- What work comes to on two trees at one location: nothing changes on either, or the same
directory is made on both, or the same file is written. -/
inductive MarkedAt (foot : Footprint) (base : Location) (t u t' u' : FileTree) (loc : Location) :
    Prop where
  | same (first : t'.find? loc = t.find? loc) (second : u'.find? loc = u.find? loc)
  | dir {names} (eq : loc = names.reverse ++ base) (within : foot.dirs names) (first : t.Open loc)
      (second : u.Open loc) (first' : t'.find? loc = some .directory)
      (second' : u'.find? loc = some .directory)
  | file {names content} (eq : loc = names.reverse ++ base) (within : foot.files names)
      (first : t.Free loc) (second : u.Free loc) (first' : t'.find? loc = some (.file content))
      (second' : u'.find? loc = some (.file content))

/-- What became of two disks by work that left the same marks on both. -/
structure Marks (foot : Footprint) (base : Location) (d e d' e' : Disk) : Prop where
  home : d'.home = d.home
  home' : e'.home = e.home
  marked : ∀ loc, foot.MarkedAt base d.tree e.tree d'.tree e'.tree loc
  written : ∃ log, d'.written = log ++ d.written ∧ e'.written = log ++ e.written ∧
    ∀ loc ∈ log, ∃ names, foot.files names ∧ loc = names.reverse ++ base

/-- Two trees agree about what a footprint is concerned with: where directories can be made, and
about the files. -/
structure Meets (foot : Footprint) (base : Location) (t u : FileTree) : Prop where
  dirs : ∀ names, foot.dirs names →
    (t.Open (names.reverse ++ base) ↔ u.Open (names.reverse ++ base))
  files : ∀ names, foot.files names →
    t.find? (names.reverse ++ base) = u.find? (names.reverse ++ base)

section Marks
variable {foot : Footprint} {base loc : Location} {t u t' u' t'' u'' : FileTree}
  {d e d' e' d'' e'' : Disk} {root : Path}

theorem MarkedAt.symm (h : foot.MarkedAt base t u t' u' loc) :
    foot.MarkedAt base u t u' t' loc := by
  cases h with
  | same first second => exact .same second first
  | dir eq within first second first' second' => exact .dir eq within second first second' first'
  | file eq within first second first' second' =>
    exact .file eq within second first second' first'

theorem MarkedAt.trans (h : foot.MarkedAt base t u t' u' loc)
    (h' : foot.MarkedAt base t' u' t'' u'' loc) : foot.MarkedAt base t u t'' u'' loc := by
  cases h with
  | same first second =>
    cases h' with
    | same first' second' => exact .same (first'.trans first) (second'.trans second)
    | dir eq within hopen hopen' hmade hmade' =>
      rw [FileTree.Open, first] at hopen
      rw [FileTree.Open, second] at hopen'
      exact .dir eq within hopen hopen' hmade hmade'
    | file eq within hfree hfree' hmade hmade' =>
      rw [FileTree.Free, first] at hfree
      rw [FileTree.Free, second] at hfree'
      exact .file eq within hfree hfree' hmade hmade'
  | dir eq within hopen hopen' hmade hmade' =>
    cases h' with
    | same first' second' =>
      exact .dir eq within hopen hopen' (first'.trans hmade) (second'.trans hmade')
    | dir _ _ _ _ hmade hmade' => exact .dir eq within hopen hopen' hmade hmade'
    | file _ _ hfree =>
      rw [FileTree.Free, hmade] at hfree
      simp at hfree
  | file eq within hfree hfree' hmade hmade' =>
    cases h' with
    | same first' second' =>
      exact .file eq within hfree hfree' (first'.trans hmade) (second'.trans hmade')
    | dir _ _ hopen =>
      rw [FileTree.Open, hmade] at hopen
      simp at hopen
    | file _ _ _ _ hmade hmade' => exact .file eq within hfree hfree' hmade hmade'

theorem Marks.refl (foot : Footprint) (base : Location) (d e : Disk) : foot.Marks base d e d e :=
  ⟨rfl, rfl, fun _ => .same rfl rfl, [], rfl, rfl, by simp⟩

theorem Marks.symm (h : foot.Marks base d e d' e') : foot.Marks base e d e' d' := by
  obtain ⟨log, hlog, hlog', hfiles⟩ := h.written
  exact ⟨h.home', h.home, fun loc => (h.marked loc).symm, log, hlog', hlog, hfiles⟩

theorem Marks.trans (h : foot.Marks base d e d' e') (h' : foot.Marks base d' e' d'' e'') :
    foot.Marks base d e d'' e'' := by
  obtain ⟨log, hlog, hlog', hfiles⟩ := h.written
  obtain ⟨more, hmore, hmore', hfiles'⟩ := h'.written
  refine ⟨h'.home.trans h.home, h'.home'.trans h.home',
    fun loc => (h.marked loc).trans (h'.marked loc), more ++ log, ?_, ?_, fun loc hloc => ?_⟩
  · rw [hmore, hlog, List.append_assoc]
  · rw [hmore', hlog', List.append_assoc]
  · exact (List.mem_append.1 hloc).elim (hfiles' loc) (hfiles loc)

theorem MarkedAt.mono {wide : Footprint} (h : foot.MarkedAt base t u t' u' loc)
    (hdirs : ∀ names, foot.dirs names → wide.dirs names)
    (hfiles : ∀ names, foot.files names → wide.files names) :
    wide.MarkedAt base t u t' u' loc := by
  cases h with
  | same first second => exact .same first second
  | dir eq within first second first' second' =>
    exact .dir eq (hdirs _ within) first second first' second'
  | file eq within first second first' second' =>
    exact .file eq (hfiles _ within) first second first' second'

theorem Marks.mono {wide : Footprint} (h : foot.Marks base d e d' e')
    (hdirs : ∀ names, foot.dirs names → wide.dirs names)
    (hfiles : ∀ names, foot.files names → wide.files names) : wide.Marks base d e d' e' := by
  obtain ⟨log, hlog, hlog', hwritten⟩ := h.written
  refine ⟨h.home, h.home', fun loc => (h.marked loc).mono hdirs hfiles, log, hlog, hlog', ?_⟩
  intro loc hloc
  obtain ⟨names, hnames, heq⟩ := hwritten loc hloc
  exact ⟨names, hfiles names hnames, heq⟩

theorem Marks.keeps (h : foot.Marks base d e d' e') : d'.tree.Keeps d.tree := by
  intro loc
  cases h.marked loc with
  | same first second => simp [first]
  | dir _ _ first _ first' =>
    refine ⟨fun _ => first', fun target hlink => ?_⟩
    rw [FileTree.Open, hlink] at first
    simp at first
  | file _ _ first =>
    constructor
    · intro hdirectory
      rw [FileTree.Free, hdirectory] at first
      simp at first
    · intro target hlink
      rw [FileTree.Free, hlink] at first
      simp at first

theorem Marks.noLink (h : foot.Marks base d e d' e') (hlink : d.tree.NoLink loc) :
    d'.tree.NoLink loc := by
  intro target hfind
  cases h.marked loc with
  | same first second => exact hlink target (first ▸ hfind)
  | dir _ _ _ _ first' =>
    rw [first'] at hfind
    cases hfind
  | file _ _ _ _ first' =>
    rw [first'] at hfind
    cases hfind

theorem Marks.find?_of_not_suffix (h : foot.Marks base d e d' e') (hloc : ¬ base <:+ loc) :
    d'.tree.find? loc = d.tree.find? loc := by
  cases h.marked loc with
  | same first second => exact first
  | dir eq => exact absurd (eq ▸ List.suffix_append _ _) hloc
  | file eq => exact absurd (eq ▸ List.suffix_append _ _) hloc

theorem Marks.find?_file (h : foot.Marks base d e d' e') {content : ByteArray}
    (hfind : d.tree.find? loc = some (.file content))
    (hfiles : ∀ names, loc = names.reverse ++ base → ¬ foot.files names) :
    d'.tree.find? loc = some (.file content) := by
  cases h.marked loc with
  | same first second => exact first.trans hfind
  | dir _ _ first =>
    rw [FileTree.Open, hfind] at first
    simp at first
  | file eq within => exact absurd within (hfiles _ eq)

theorem Marks.standing (h : foot.Marks base d e d' e') (hd : Standing root base d) :
    Standing root base d' where
  leads := by
    have hleads : root.Leads [d'.tree] d.home base [] := hd.leads.mono fun tree htree =>
      ⟨d.tree, List.mem_singleton_self _, List.mem_singleton.1 htree ▸ h.keeps⟩
    rwa [h.home]
  noLink hloc := h.noLink (hd.noLink hloc)

theorem Meets.marks (h : foot.Meets base d.tree e.tree) (hmarks : foot.Marks base d e d' e') :
    foot.Meets base d'.tree e'.tree := by
  refine ⟨fun names hnames => ?_, fun names hnames => ?_⟩
  · cases hmarks.marked (names.reverse ++ base) with
    | same first second =>
      simpa only [FileTree.Open, first, second] using h.dirs names hnames
    | dir _ _ _ _ first' second' => simp [FileTree.Open, first', second']
    | file _ _ _ _ first' second' => simp [FileTree.Open, first', second']
  · cases hmarks.marked (names.reverse ++ base) with
    | same first second => rw [first, second, h.files names hnames]
    | dir _ _ _ _ first' second' => rw [first', second']
    | file _ _ _ _ first' second' => rw [first', second']

end Marks

end Footprint

/-- A tree has directories, given by names below one directory. -/
def FileTree.Has (tree : FileTree) (base : Location) (made : List (List String)) : Prop :=
  ∀ names ∈ made, tree.find? (names.reverse ++ base) = some .directory

section Standing
variable {root : Path} {base : Location} {disk d e : Disk} {names dir : List String}
  {name : String} {foot : Footprint} {deed : Deed} {made : List (List String)}
  {deeds : List Deed} {blame : Path} {content : ByteArray}

theorem Path.Leads.joins {grounds : List FileTree} {home : Location}
    (h : root.Leads grounds home base []) (hnames : ∀ name ∈ names, IsName name) :
    (root.joins names).Leads grounds home base names := by
  induction names using List.reverseRecOn with
  | nil => exact h
  | append_singleton names name ih =>
    have hjoin : root.joins (names ++ [name]) = (root.joins names).join name := by
      simp [Path.joins]
    rw [hjoin]
    exact (ih fun name hname => hnames name (List.mem_append_left _ hname)).join
      (hnames name (by simp))

theorem Standing.leads_joins (h : Standing root base disk) (hnames : ∀ name ∈ names, IsName name) :
    (root.joins names).Leads [disk.tree] disk.home base names := h.leads.joins hnames

theorem Standing.along (h : Standing root base disk) (names : List String) :
    Along disk.tree.NoLink base names :=
  along_of_forall fun _ _ _ => h.noLink (List.suffix_append _ _)

theorem Standing.leads_directory (h : Standing root base disk)
    (hnames : ∀ name ∈ names, IsName name)
    (hfound : disk.tree.find? (names.reverse ++ base) = some .directory) :
    (root.joins names).Leads [disk.tree] disk.home (names.reverse ++ base) [] :=
  (h.leads_joins hnames).enter (List.forall_mem_singleton.2 hfound)

theorem Deed.run_make : ((Deed.make names).work root).run.run disk =
    (((DiskM.makeDirectories (root.joins names)).run.run disk).1.mapError
      (.io (root.joins names)), ((DiskM.makeDirectories (root.joins names)).run.run disk).2) :=
  run_adapt

theorem Deed.run_write : ((Deed.write blame dir name content).work root).run.run disk =
    (((DiskM.writeBytes ((root.joins dir).join name) content).run.run disk).1.mapError (.io blame),
      ((DiskM.writeBytes ((root.joins dir).join name) content).run.run disk).2) :=
  run_adapt

theorem FileTree.NoLink.free {tree : FileTree} {loc : Location} (h : tree.NoLink loc)
    (hfree : tree.find? loc ≠ some .directory) : tree.Free loc := by
  cases hfind : tree.find? loc with
  | none => exact .inl hfind
  | some entry =>
    cases entry with
    | file content => exact .inr ⟨content, hfind⟩
    | directory => exact absurd hfind hfree
    | link target => exact absurd hfind (h target)

theorem Standing.run_make (h : Standing root base disk) (hnamed : (Deed.make names).Named) :
    ((Deed.make names).work root).run.run disk =
      match (root.joins names).fault? with
      | some fault => (.error (.io (root.joins names) fault), disk)
      | none => ((disk.tree.pave base names).1.mapError (.io (root.joins names)),
        { disk with tree := (disk.tree.pave base names).2 }) := by
  obtain ⟨hne, hnames⟩ := hnamed
  have hleads := h.leads_joins hnames
  rw [Deed.run_make]
  cases hfault : (root.joins names).fault? with
  | some fault =>
    have hempty : (root.joins names).isEmpty = false := by
      obtain ⟨steps, hsteps, -⟩ := hleads.way
      exact Path.isEmpty_eq_false (by simp [hsteps, hne])
    rw [DiskM.run_makeDirectories_of_fault hempty hfault]
    rfl
  | none =>
    rw [hleads.run_makeDirectories hne disk.over_self (h.along names) hfault]
    rfl

theorem Standing.noLink_written (h : Standing root base disk) :
    disk.tree.NoLink (name :: (dir.reverse ++ base)) :=
  h.noLink ((List.suffix_append _ _).trans (List.suffix_cons _ _))

theorem Standing.run_write_error (h : Standing root base disk)
    (hnamed : (Deed.write blame dir name content).Named)
    (hdir : disk.tree.find? (dir.reverse ++ base) = some .directory) {fault : Fault}
    (hfault : ((root.joins dir).join name).writeFault? name
      (disk.tree.isDirectory (name :: (dir.reverse ++ base))) = some fault) :
    ((Deed.write blame dir name content).work root).run.run disk =
      (.error (.io blame fault), disk) := by
  rw [Deed.run_write, (h.leads_directory hnamed.1 hdir).run_writeBytes_error hnamed.2
    h.noLink_written hfault]
  rfl

theorem Standing.exists_run_write (h : Standing root base disk)
    (hnamed : (Deed.write blame dir name content).Named)
    (hdir : disk.tree.find? (dir.reverse ++ base) = some .directory)
    (hfault : ((root.joins dir).join name).writeFault? name
      (disk.tree.isDirectory (name :: (dir.reverse ++ base))) = none) :
    disk.tree.find? (name :: (dir.reverse ++ base)) ≠ some .directory ∧
    ∃ tree, disk.tree.put? (name :: (dir.reverse ++ base)) (.file content) = some tree ∧
      ((Deed.write blame dir name content).work root).run.run disk = (.ok (),
        { disk with tree, written := (name :: (dir.reverse ++ base)) :: disk.written }) := by
  obtain ⟨hfree, tree, htree, hrun⟩ := (h.leads_directory hnamed.1 hdir).run_writeBytes_ok hnamed.2
    h.noLink_written content hfault
  refine ⟨hfree, tree, htree, ?_⟩
  rw [Deed.run_write, hrun]
  rfl

theorem Deed.make_congr (hd : Standing root base d) (he : Standing root base e)
    (hnamed : (Deed.make names).Named) (hwithin : (Deed.make names).Within foot)
    (hmeets : foot.Meets base d.tree e.tree) :
    (((Deed.make names).work root).run.run d).1 = (((Deed.make names).work root).run.run e).1 ∧
    foot.Marks base d e (((Deed.make names).work root).run.run d).2
      (((Deed.make names).work root).run.run e).2 := by
  rw [hd.run_make hnamed, he.run_make hnamed]
  cases (root.joins names).fault? with
  | some fault => exact ⟨rfl, .refl _ _ _ _⟩
  | none =>
    have hopen : ∀ loc, Passed base names loc → (d.tree.Open loc ↔ e.tree.Open loc) := by
      rintro loc ⟨first, hfirst, hprefix, rfl⟩
      exact hmeets.dirs first (hwithin first hfirst hprefix)
    obtain ⟨hresult, hpaved⟩ := FileTree.pave_congr (hd.leads.find? d.over_self)
      (he.leads.find? e.over_self) hopen
    refine ⟨congrArg (Except.mapError _) hresult, rfl, rfl, fun loc => ?_, [], rfl, rfl, by simp⟩
    rcases hpaved loc with ⟨hsame, hsame'⟩ | ⟨⟨first, hfirst, hprefix, heq⟩, hboth⟩
    · exact .same hsame hsame'
    · exact .dir heq (hwithin first hfirst hprefix) hboth.1 hboth.2.1 hboth.2.2.1 hboth.2.2.2

theorem Deed.write_congr (hd : Standing root base d) (he : Standing root base e)
    (hnamed : (Deed.write blame dir name content).Named)
    (hwithin : (Deed.write blame dir name content).Within foot)
    (hdir : d.tree.find? (dir.reverse ++ base) = some .directory)
    (hdir' : e.tree.find? (dir.reverse ++ base) = some .directory)
    (hmeets : foot.Meets base d.tree e.tree) :
    (((Deed.write blame dir name content).work root).run.run d).1 =
      (((Deed.write blame dir name content).work root).run.run e).1 ∧
    foot.Marks base d e (((Deed.write blame dir name content).work root).run.run d).2
      (((Deed.write blame dir name content).work root).run.run e).2 := by
  have hloc : name :: (dir.reverse ++ base) = (dir ++ [name]).reverse ++ base := by simp
  have htaken : e.tree.isDirectory (name :: (dir.reverse ++ base)) =
      d.tree.isDirectory (name :: (dir.reverse ++ base)) := by
    rw [FileTree.isDirectory, FileTree.isDirectory, hloc, hmeets.files _ hwithin]
  cases hfault : ((root.joins dir).join name).writeFault? name
      (d.tree.isDirectory (name :: (dir.reverse ++ base))) with
  | some fault =>
    rw [hd.run_write_error hnamed hdir hfault, he.run_write_error hnamed hdir' (htaken ▸ hfault)]
    exact ⟨rfl, .refl _ _ _ _⟩
  | none =>
    obtain ⟨hfree, tree, htree, hrun⟩ := hd.exists_run_write hnamed hdir hfault
    obtain ⟨hfree', tree', htree', hrun'⟩ := he.exists_run_write hnamed hdir' (htaken ▸ hfault)
    rw [hrun, hrun']
    have hfind := FileTree.find?_put? htree
    have hfind' := FileTree.find?_put? htree'
    refine ⟨rfl, rfl, rfl, fun loc => ?_, [name :: (dir.reverse ++ base)], rfl, rfl, ?_⟩
    · by_cases heq : name :: (dir.reverse ++ base) = loc
      · subst heq
        exact .file hloc hwithin (hd.noLink_written.free hfree) (he.noLink_written.free hfree')
          ((hfind _).trans (if_pos rfl)) ((hfind' _).trans (if_pos rfl))
      · exact .same ((hfind loc).trans (if_neg heq)) ((hfind' loc).trans (if_neg heq))
    · exact fun loc hmem => ⟨_, hwithin, (List.mem_singleton.1 hmem).trans hloc⟩

theorem Deed.run_congr (hd : Standing root base d) (he : Standing root base e)
    (hnamed : deed.Named) (hwithin : deed.Within foot) (hfounded : deed.FoundedOn made)
    (hmade : d.tree.Has base made) (hmade' : e.tree.Has base made)
    (hmeets : foot.Meets base d.tree e.tree) :
    ((deed.work root).run.run d).1 = ((deed.work root).run.run e).1 ∧
    foot.Marks base d e ((deed.work root).run.run d).2 ((deed.work root).run.run e).2 := by
  cases deed with
  | make names => exact make_congr hd he hnamed hwithin hmeets
  | write blame dir name content =>
    exact write_congr hd he hnamed hwithin (hmade dir hfounded) (hmade' dir hfounded) hmeets

theorem Deed.has_made (hd : Standing root base d) (hnamed : deed.Named)
    (hok : ((deed.work root).run.run d).1 = .ok ()) :
    ((deed.work root).run.run d).2.tree.Has base deed.made := by
  cases deed with
  | write blame dir name content => exact fun names hnames => nomatch hnames
  | make names =>
    rw [hd.run_make hnamed] at hok ⊢
    refine List.forall_mem_singleton.2 ?_
    cases hfault : (root.joins names).fault? with
    | some fault =>
      rw [hfault] at hok
      cases hok
    | none =>
      rw [hfault] at hok
      refine FileTree.find?_pave_ok (hd.leads.find? d.over_self) ?_
      cases hresult : (d.tree.pave base names).1 with
      | ok => rfl
      | error fault => simp [hresult, Except.mapError] at hok

theorem Deed.find?_written (hd : Standing root base d)
    (hnamed : (Deed.write blame dir name content).Named)
    (hdir : d.tree.find? (dir.reverse ++ base) = some .directory)
    (hok : (((Deed.write blame dir name content).work root).run.run d).1 = .ok ()) :
    (((Deed.write blame dir name content).work root).run.run d).2.tree.find?
      ((dir ++ [name]).reverse ++ base) = some (.file content) := by
  have hloc : name :: (dir.reverse ++ base) = (dir ++ [name]).reverse ++ base := by simp
  cases hfault : ((root.joins dir).join name).writeFault? name
      (d.tree.isDirectory (name :: (dir.reverse ++ base))) with
  | some fault =>
    rw [hd.run_write_error hnamed hdir hfault] at hok
    cases hok
  | none =>
    obtain ⟨-, tree, htree, hrun⟩ := hd.exists_run_write hnamed hdir hfault
    rw [hrun, ← hloc]
    exact (FileTree.find?_put? htree _).trans (if_pos rfl)

end Standing

section Perform
variable {root : Path} {base : Location} {d e d' : Disk} {foot : Footprint} {deed : Deed}
  {made : List (List String)} {deeds more : List Deed} {blame : Path} {dir : List String}
  {name : String} {content : ByteArray}

theorem run_perform_cons : (perform root (deed :: deeds)).run.run d =
    match (deed.work root).run.run d with
    | (.ok (), d') => (perform root deeds).run.run d'
    | (.error failure, d') => (.error failure, d') := by
  have hcons : perform root (deed :: deeds) = (deed.work root >>= fun _ => perform root deeds) :=
    rfl
  rw [hcons, run_bind]
  rcases (deed.work root).run.run d with ⟨result, d₁⟩
  cases result <;> rfl

theorem exists_of_run_perform_cons (h : (perform root (deed :: deeds)).run.run d = (.ok (), d')) :
    ∃ d₁, (deed.work root).run.run d = (.ok (), d₁) ∧
      (perform root deeds).run.run d₁ = (.ok (), d') := by
  obtain ⟨_, d₁, hfirst, hmore⟩ := exists_of_run_bind h
  exact ⟨d₁, hfirst, hmore⟩

theorem run_perform_append : (perform root (deeds ++ more)).run.run d =
    match (perform root deeds).run.run d with
    | (.ok (), d') => (perform root more).run.run d'
    | (.error failure, d') => (.error failure, d') := by
  induction deeds generalizing d with
  | nil => rfl
  | cons deed deeds ih =>
    rw [List.cons_append, run_perform_cons, run_perform_cons]
    rcases (deed.work root).run.run d with ⟨result, d₁⟩
    cases result with
    | error failure => rfl
    | ok => exact ih

theorem perform_append : perform root (deeds ++ more) =
    (perform root deeds >>= fun _ => perform root more) := List.forM_append

theorem perform_singleton : perform root [deed] = deed.work root := bind_pure _

theorem founded_append : Founded made (deeds ++ more) ↔
    Founded made deeds ∧ Founded (deeds.reverse.flatMap Deed.made ++ made) more := by
  induction deeds generalizing made with
  | nil => simp [Founded]
  | cons deed deeds ih => simp [Founded, ih, and_assoc]

theorem Deed.FoundedOn.mono {wide : List (List String)} (h : deed.FoundedOn made)
    (hwide : ∀ names ∈ made, names ∈ wide) : deed.FoundedOn wide := by
  cases deed with
  | make names => trivial
  | write blame dir name content => exact hwide dir h

theorem founded_of_forall (h : ∀ deed ∈ deeds, deed.FoundedOn made) : Founded made deeds := by
  induction deeds generalizing made with
  | nil => trivial
  | cons deed deeds ih =>
    obtain ⟨hdeed, hrest⟩ := List.forall_mem_cons.1 h
    exact ⟨hdeed, ih fun other hother => (hrest other hother).mono fun _ =>
      List.mem_append_right _⟩

theorem FileTree.Has.append {tree : FileTree} {other : List (List String)}
    (h : tree.Has base made) (hother : tree.Has base other) : tree.Has base (other ++ made) :=
  fun names hnames => (List.mem_append.1 hnames).elim (hother names) (h names)

theorem FileTree.Has.keeps {tree small : FileTree} (h : small.Has base made)
    (hkeeps : tree.Keeps small) : tree.Has base made :=
  fun names hnames => (hkeeps _).1 (h names hnames)

theorem perform_congr (hd : Standing root base d) (he : Standing root base e)
    (hdeeds : ∀ deed ∈ deeds, deed.Named ∧ deed.Within foot) (hfounded : Founded made deeds)
    (hmade : d.tree.Has base made) (hmade' : e.tree.Has base made)
    (hmeets : foot.Meets base d.tree e.tree) :
    ((perform root deeds).run.run d).1 = ((perform root deeds).run.run e).1 ∧
    foot.Marks base d e ((perform root deeds).run.run d).2
      ((perform root deeds).run.run e).2 := by
  induction deeds generalizing made d e with
  | nil => exact ⟨rfl, .refl _ _ _ _⟩
  | cons deed deeds ih =>
    obtain ⟨⟨hnamed, hwithin⟩, hrest⟩ := List.forall_mem_cons.1 hdeeds
    obtain ⟨hresult, hmarks⟩ := Deed.run_congr hd he hnamed hwithin hfounded.1 hmade hmade' hmeets
    have hnew := Deed.has_made hd hnamed
    have hnew' := Deed.has_made he hnamed
    rw [run_perform_cons, run_perform_cons]
    revert hresult hmarks hnew hnew'
    rcases (deed.work root).run.run d with ⟨result, d₁⟩
    rcases (deed.work root).run.run e with ⟨result', e₁⟩
    rintro (rfl : result = result') hmarks hnew hnew'
    cases result with
    | error failure => exact ⟨rfl, hmarks⟩
    | ok =>
      obtain ⟨hend, hmore⟩ := ih (hmarks.standing hd) (hmarks.symm.standing he) hrest hfounded.2
        ((hmade.keeps hmarks.keeps).append (hnew rfl))
        ((hmade'.keeps hmarks.symm.keeps).append (hnew' rfl)) (hmeets.marks hmarks)
      exact ⟨hend, hmarks.trans hmore⟩

theorem Footprint.Meets.refl (foot : Footprint) (base : Location) (t : FileTree) :
    foot.Meets base t t := ⟨fun _ _ => Iff.rfl, fun _ _ => rfl⟩

theorem perform_marks (hd : Standing root base d)
    (hdeeds : ∀ deed ∈ deeds, deed.Named ∧ deed.Within foot) (hfounded : Founded made deeds)
    (hmade : d.tree.Has base made) :
    foot.Marks base d d ((perform root deeds).run.run d).2 ((perform root deeds).run.run d).2 :=
  (perform_congr hd hd hdeeds hfounded hmade hmade (.refl _ _ _)).2

def Deed.footprint : Deed → Footprint
  | .make _ => ⟨fun _ => True, fun _ => False⟩
  | .write _ dir name _ => ⟨fun _ => False, fun names => names = dir ++ [name]⟩

theorem Deed.within_footprint : deed.Within deed.footprint := by
  cases deed with
  | make names => exact fun _ _ _ => trivial
  | write blame dir name content => exact rfl

theorem Deed.marks_of_run (hd : Standing root base d) (hnamed : deed.Named)
    (hfounded : deed.FoundedOn made) (hmade : d.tree.Has base made)
    (hrun : (deed.work root).run.run d = (.ok (), d')) :
    deed.footprint.Marks base d d d' d' := by
  have hmarks := (run_congr hd hd hnamed deed.within_footprint hfounded hmade hmade
    (.refl _ _ _)).2
  rwa [hrun] at hmarks

theorem Deed.standing_of_run (hd : Standing root base d) (hnamed : deed.Named)
    (hfounded : deed.FoundedOn made) (hmade : d.tree.Has base made)
    (hrun : (deed.work root).run.run d = (.ok (), d')) :
    Standing root base d' ∧ d'.tree.Has base (deed.made ++ made) := by
  have hmarks := marks_of_run hd hnamed hfounded hmade hrun
  have hnew := has_made hd hnamed
  rw [hrun] at hnew
  exact ⟨hmarks.standing hd, (hmade.keeps hmarks.keeps).append (hnew rfl)⟩

/-- A file that is there or is written is there behind a deed, unless the deed writes it
differently. -/
theorem Deed.find?_of_run (hd : Standing root base d) (hnamed : deed.Named)
    (hfounded : deed.FoundedOn made) (hmade : d.tree.Has base made)
    (hrun : (deed.work root).run.run d = (.ok (), d'))
    (hunique : ∀ blame' dir' name' content', deed = .write blame' dir' name' content' →
      dir' ++ [name'] = dir ++ [name] → content' = content)
    (hfile : d.tree.find? ((dir ++ [name]).reverse ++ base) = some (.file content) ∨
      ∃ blame, deed = .write blame dir name content) :
    d'.tree.find? ((dir ++ [name]).reverse ++ base) = some (.file content) := by
  have hmarks := marks_of_run hd hnamed hfounded hmade hrun
  cases deed with
  | make names => exact hmarks.find?_file (hfile.resolve_right (by simp)) fun _ _ => id
  | write blame' dir' name' content' =>
    by_cases hsame : dir' ++ [name'] = dir ++ [name]
    · obtain rfl := hunique _ _ _ _ rfl hsame
      have hwritten := find?_written hd hnamed (hmade dir' hfounded)
      rw [hrun] at hwritten
      exact hsame ▸ hwritten rfl
    · have hfind := hfile.resolve_right (by rintro ⟨blame, heq⟩; cases heq; exact hsame rfl)
      refine hmarks.find?_file hfind fun names heq hnames => ?_
      rw [List.append_left_inj, List.reverse_inj] at heq
      exact hsame (hnames.symm.trans heq.symm)

theorem perform_has (hd : Standing root base d) (hnamed : ∀ deed ∈ deeds, deed.Named)
    (hfounded : Founded made deeds) (hmade : d.tree.Has base made)
    (hok : (perform root deeds).run.run d = (.ok (), d')) :
    d'.tree.Has base (deeds.reverse.flatMap Deed.made ++ made) := by
  induction deeds generalizing made d with
  | nil =>
    cases hok
    simpa using hmade
  | cons deed deeds ih =>
    obtain ⟨hdeed, hrest⟩ := List.forall_mem_cons.1 hnamed
    obtain ⟨d₁, hfirst, hmore⟩ := exists_of_run_perform_cons hok
    obtain ⟨hd₁, hmade₁⟩ := Deed.standing_of_run hd hdeed hfounded.1 hmade hfirst
    have hend := ih hd₁ hrest hfounded.2 hmade₁ hmore
    simpa using hend

/-- A file that is there or is to be written is there in the end, unless it is written differently
as well. -/
theorem find?_perform (hd : Standing root base d) (hnamed : ∀ deed ∈ deeds, deed.Named)
    (hfounded : Founded made deeds) (hmade : d.tree.Has base made)
    (hok : (perform root deeds).run.run d = (.ok (), d'))
    (hunique : ∀ blame' dir' name' content', .write blame' dir' name' content' ∈ deeds →
      dir' ++ [name'] = dir ++ [name] → content' = content)
    (hfile : d.tree.find? ((dir ++ [name]).reverse ++ base) = some (.file content) ∨
      ∃ blame, .write blame dir name content ∈ deeds) :
    d'.tree.find? ((dir ++ [name]).reverse ++ base) = some (.file content) := by
  induction deeds generalizing made d with
  | nil =>
    cases hok
    exact hfile.resolve_right (by simp)
  | cons deed deeds ih =>
    obtain ⟨hdeed, hrest⟩ := List.forall_mem_cons.1 hnamed
    obtain ⟨d₁, hfirst, hmore⟩ := exists_of_run_perform_cons hok
    obtain ⟨hd₁, hmade₁⟩ := Deed.standing_of_run hd hdeed hfounded.1 hmade hfirst
    have hhere := Deed.find?_of_run hd hdeed hfounded.1 hmade hfirst
      fun _ _ _ _ heq => hunique _ _ _ _ (List.mem_cons.2 (.inl heq.symm))
    refine ih hd₁ hrest hfounded.2 hmade₁ hmore
      (fun _ _ _ _ hmem => hunique _ _ _ _ (List.mem_cons_of_mem _ hmem)) ?_
    rcases hfile with hfind | ⟨blame, hmem⟩
    · exact .inl (hhere (.inl hfind))
    · rcases List.mem_cons.1 hmem with heq | hmem
      · exact .inl (hhere (.inr ⟨blame, heq.symm⟩))
      · exact .inr ⟨blame, hmem⟩

/-- Of the deeds that write a file the last ones decide. -/
theorem find?_perform_append (hd : Standing root base d)
    (hnamed : ∀ deed ∈ deeds ++ more, deed.Named) (hfounded : Founded made (deeds ++ more))
    (hmade : d.tree.Has base made)
    (hok : (perform root (deeds ++ more)).run.run d = (.ok (), d'))
    (hunique : ∀ blame' dir' name' content', .write blame' dir' name' content' ∈ more →
      dir' ++ [name'] = dir ++ [name] → content' = content)
    (hmem : .write blame dir name content ∈ more) :
    d'.tree.find? ((dir ++ [name]).reverse ++ base) = some (.file content) := by
  obtain ⟨hdeeds, hmore⟩ := List.forall_mem_append.1 hnamed
  obtain ⟨hfirst, hlast⟩ := founded_append.1 hfounded
  have hanywhere : ∀ deed ∈ deeds, deed.Named ∧ deed.Within (.ofKind fun _ => True) :=
    fun deed hdeed => ⟨hdeeds deed hdeed, Deed.within_ofKind trivial⟩
  rw [run_perform_append] at hok
  rcases hrun : (perform root deeds).run.run d with ⟨result, d₁⟩
  rw [hrun] at hok
  cases result with
  | error failure => cases hok
  | ok =>
    have hmarks := perform_marks hd hanywhere hfirst hmade
    rw [hrun] at hmarks
    exact find?_perform (hmarks.standing hd) hmore hlast (perform_has hd hdeeds hfirst hmade hrun)
      hok hunique (.inr ⟨blame, hmem⟩)

end Perform

end Unbundle.Files
