import Unbundle.Proofs.Build.Units
import Unbundle.Proofs.Files.Deeds

/-! The place that the units of a build work at. The paths of the settings lead to the two roots,
which lie apart, and all that the units do is to make directories and to write files below the
output root. So what they read in the source stays as it was. -/

namespace Unbundle.Build
open Unbundle.Files
open Unbundle.Files.FileTree (Along)

/-- A setup with a disk that units can be run on. -/
structure Workplace where
  setup : Setup
  ready : Disk
  source : Location
  output : Location
  leadsSource : ready.entry setup.settings.sourceRoot = .ok (source, .directory)
  leadsOutput : ready.entry setup.settings.outputRoot = .ok (output, .directory)
  sourceApart : ¬ source <:+ output
  outputApart : ¬ output <:+ source
  noLink : ∀ {loc}, output <:+ loc → ready.tree.NoLink loc

namespace Workplace

/-- Directories may be made and files may be written at all names. -/
def anywhere : Footprint := ⟨fun _ => True, fun _ => True⟩

/-- The disk as it may be while the units are run. -/
def Underway (w : Workplace) (disk : Disk) : Prop :=
  anywhere.Marks w.output w.ready w.ready disk disk

/-- There are no links in the source. -/
def Unlinked (w : Workplace) : Prop := ∀ {loc}, w.source <:+ loc → w.ready.tree.NoLink loc

/-- The output root is empty before the units are run. -/
def Fresh (w : Workplace) : Prop :=
  ∀ {loc}, Beneath w.output loc → w.ready.tree.find? loc = none

/-- Disks on which the units find what was made before and read the same: as nothing in the source
is a link to what they write, or as it is one disk. -/
structure Steady (w : Workplace) (made : List (List String)) (among : Disk → Prop) : Prop where
  underway : ∀ {d}, among d → w.Underway d
  has : ∀ {d}, among d → d.tree.Has w.output made
  reads : w.Unlinked ∨ ∀ {d e}, among d → among e → d = e

section Underway
variable {w : Workplace} {d e d' : Disk} {loc : Location} {names : List String}
  {foot : Footprint} {made : List (List String)} {among : Disk → Prop}

theorem not_source_of_output (w : Workplace) (h : w.output <:+ loc) : ¬ w.source <:+ loc :=
  fun hsource => (suffix_or_suffix hsource h).elim w.sourceApart w.outputApart

theorem not_output_of_source (w : Workplace) (h : w.source <:+ loc) : ¬ w.output <:+ loc :=
  fun houtput => w.not_source_of_output houtput h

theorem underway_ready (w : Workplace) : w.Underway w.ready := .refl _ _ _ _

theorem Underway.marks (h : w.Underway d) (hmarks : foot.Marks w.output d d d' d') :
    w.Underway d' :=
  h.trans (hmarks.mono (fun _ _ => trivial) fun _ _ => trivial)

theorem standing_ready (w : Workplace) :
    Standing w.setup.settings.outputRoot w.output w.ready where
  leads := Path.leads_of_entry (List.forall_mem_singleton.2 w.leadsOutput)
  noLink := w.noLink

theorem Underway.standing (h : w.Underway d) :
    Standing w.setup.settings.outputRoot w.output d := Footprint.Marks.standing h w.standing_ready

theorem Underway.over (h : w.Underway d) : d.Over [w.ready.tree] w.ready.home :=
  ⟨h.home, w.ready.tree, List.mem_singleton_self _, h.keeps⟩

theorem Underway.find?_source (h : w.Underway d) (hloc : w.source <:+ loc) :
    d.tree.find? loc = w.ready.tree.find? loc :=
  h.find?_of_not_suffix (w.not_output_of_source hloc)

theorem Underway.find?_of_fresh (h : w.Underway d) (hfresh : w.Fresh) {entry : Entry}
    (hfound : w.ready.tree.find? loc = some entry) : d.tree.find? loc = some entry := by
  by_cases hloc : w.output <:+ loc
  · by_cases heq : loc = w.output
    · subst heq
      have hroot := (Disk.follow_of_entry w.leadsOutput).2
      rw [hroot] at hfound
      cases hfound
      exact (h.keeps _).1 hroot
    · rw [hfresh ⟨hloc, heq⟩] at hfound
      cases hfound
  · rw [h.find?_of_not_suffix hloc, hfound]

theorem Underway.entry_of_fresh (h : w.Underway d) (hfresh : w.Fresh) {path : Files.Path}
    {entry : Entry} (hentry : w.ready.entry path = .ok (loc, entry)) :
    d.entry path = .ok (loc, entry) :=
  Disk.entry_of_keeps h.home h.keeps hentry
    (h.find?_of_fresh hfresh (Disk.follow_of_entry hentry).2)

theorem Underway.readText_of_fresh (h : w.Underway d) (hfresh : w.Fresh) {path : Files.Path}
    {entry : Entry} (hentry : w.ready.entry path = .ok (loc, entry)) :
    d.readText path = w.ready.readText path := by
  unfold Disk.readText Disk.readBytes
  rw [h.entry_of_fresh hfresh hentry, hentry]

theorem leads_sourcePath (w : Workplace) (hnames : ∀ name ∈ names, IsName name) :
    (sourcePath w.setup.settings names).Leads [w.ready.tree] w.ready.home w.source names :=
  (Path.leads_of_entry (List.forall_mem_singleton.2 w.leadsSource)).joins hnames

theorem steady_underway (hlinks : w.Unlinked) : w.Steady [] w.Underway :=
  ⟨id, fun _ => nofun, .inl hlinks⟩

theorem Underway.list_root (h : w.Underway d) :
    d.list w.setup.settings.sourceRoot = w.ready.list w.setup.settings.sourceRoot := by
  have hroot : d.tree.find? w.source = some .directory :=
    (h.find?_source (List.suffix_refl _)).trans (Disk.follow_of_entry w.leadsSource).2
  have hentry : d.entry w.setup.settings.sourceRoot = .ok (w.source, .directory) :=
    Disk.entry_of_keeps h.home h.keeps w.leadsSource hroot
  unfold Disk.list
  rw [hentry, w.leadsSource]
  exact congrArg Except.ok (FileTree.children_congr fun name =>
    h.find?_source (List.suffix_cons _ _))

theorem Underway.along_agrees (hd : w.Underway d) (he : w.Underway e) (hlinks : w.Unlinked)
    (names : List String) : Along (d.tree.Agrees e.tree) w.source names :=
  along_of_forall fun first _ _ => by
    have hsource : w.source <:+ first.reverse ++ w.source := List.suffix_append _ _
    have hfind := hd.find?_source hsource
    refine ⟨hfind.trans (he.find?_source hsource).symm, fun target hlink => ?_⟩
    exact hlinks hsource target (hfind ▸ hlink)

theorem Steady.entry (h : w.Steady made among) (hd : among d) (he : among e)
    (hnames : ∀ name ∈ names, IsName name) :
    d.entry (sourcePath w.setup.settings names) =
      e.entry (sourcePath w.setup.settings names) := by
  rcases h.reads with hlinks | hone
  · exact (w.leads_sourcePath hnames).entry_congr (h.underway hd).over (h.underway he).over
      ((h.underway hd).along_agrees (h.underway he) hlinks names)
  · rw [hone hd he]

theorem Steady.list (h : w.Steady made among) (hd : among d) (he : among e)
    (hnames : ∀ name ∈ names, IsName name) :
    d.list (sourcePath w.setup.settings names) =
      e.list (sourcePath w.setup.settings names) := by
  rcases h.reads with hlinks | hone
  · refine (w.leads_sourcePath hnames).list_congr (h.underway hd).over (h.underway he).over
      ((h.underway hd).along_agrees (h.underway he) hlinks names) fun name => ?_
    have hsource : w.source <:+ name :: (names.reverse ++ w.source) :=
      (List.suffix_append _ _).trans (List.suffix_cons _ _)
    exact ((h.underway hd).find?_source hsource).trans ((h.underway he).find?_source hsource).symm
  · rw [hone hd he]

end Underway

end Workplace

end Unbundle.Build
