import Unbundle.Proofs.Build.Units
import Unbundle.Proofs.Files.Trees

/-! One module among others. What the module has in the source is hidden from the units of the other
modules, and they do not touch what it has in the output. So they are in step on two disks that are
alike in everything else, and what a unit of the module itself does stays in the module's output. -/

namespace Unbundle.Build
open Unbundle.Files
open Unbundle.Files.FileTree (Along)

/-- A module in a build, and where the roots of source and output are. -/
structure Scene where
  setup : Setup
  module : String
  /-- Where relative paths begin. -/
  home : Location
  source : Location
  output : Location

namespace Scene

def enums (scene : Scene) : Location :=
  [typesName, enumsName, scene.module].reverse ++ scene.source

/-- What only the module has in the source: the contents of its directory and of its enums. -/
def Hidden (scene : Scene) (loc : Location) : Prop :=
  Beneath (scene.module :: scene.source) loc ∨ Beneath scene.enums loc

/-- What only the module has in the output: its directory with all that is in it. -/
def Own (scene : Scene) (loc : Location) : Prop := (scene.module :: scene.output) <:+ loc

instance (scene : Scene) (loc : Location) : Decidable (scene.Hidden loc) :=
  inferInstanceAs (Decidable (_ ∨ _))

instance (scene : Scene) (loc : Location) : Decidable (scene.Own loc) :=
  inferInstanceAs (Decidable ((scene.module :: scene.output) <:+ loc))

def hide (scene : Scene) (tree : FileTree) : FileTree :=
  (tree.eraseBelow (scene.module :: scene.source)).eraseBelow scene.enums

/-- Where no links are: in the source, except for what is hidden, and in the output. -/
def Plain (scene : Scene) (loc : Location) : Prop :=
  (scene.source <:+ loc ∧ ¬ scene.Hidden loc) ∨ scene.output <:+ loc

/-- The roots lie apart, and no name can lead from one module to another. -/
structure Apart (scene : Scene) : Prop where
  extension : '/' ∉ scene.setup.settings.extension.toList
  notTypes : scene.module ≠ typesName
  sourceApart : ¬ scene.source <:+ scene.output
  outputApart : ¬ scene.output <:+ scene.source

/-- The paths of the settings lead to the roots in each of some trees. -/
structure Fits (scene : Scene) (grounds : List FileTree) : Prop extends scene.Apart where
  source : scene.setup.settings.sourceRoot.Leads grounds scene.home scene.source []
  output : scene.setup.settings.outputRoot.Leads grounds scene.home scene.output []

/-- The disk has the directories and links of one of some trees, and no links where there should be
none. -/
structure Sound (scene : Scene) (grounds : List FileTree) (disk : Disk) : Prop where
  stands : disk.Over grounds scene.home
  noLink : ∀ {loc}, scene.Plain loc → disk.tree.NoLink loc

/-- Two disks that differ in what the module has in the source and in the output alone. -/
structure Alike (scene : Scene) (grounds : List FileTree) (disk other : Disk) : Prop where
  sound : scene.Sound grounds disk
  sound' : scene.Sound grounds other
  same : ∀ {loc}, ¬ scene.Hidden loc → ¬ scene.Own loc → disk.tree.find? loc = other.tree.find? loc

/-- One disk that differs from what it was in the module's output alone. -/
structure Touched (scene : Scene) (grounds : List FileTree) (before disk other : Disk) : Prop where
  sound : scene.Sound grounds disk
  eq : disk = other
  same : ∀ {loc}, ¬ scene.Own loc → disk.tree.find? loc = before.tree.find? loc

section Locations
variable {scene : Scene} {grounds : List FileTree} {tree : FileTree} {loc : Location}
  {module : String} {names : List String}

theorem find?_hide :
    (scene.hide tree).find? loc = if scene.Hidden loc then none else tree.find? loc := by
  rw [hide, FileTree.find?_eraseBelow, FileTree.find?_eraseBelow]
  by_cases hdir : Beneath (scene.module :: scene.source) loc
  · simp [Hidden, hdir]
  · simp [Hidden, hdir]

theorem Hidden.source (h : scene.Hidden loc) : scene.source <:+ loc := by
  rcases h with ⟨hdir, -⟩ | ⟨henums, -⟩
  · exact (List.suffix_cons _ _).trans hdir
  · exact (List.suffix_append _ _).trans henums

theorem Apart.not_source_of_output (apart : scene.Apart) (h : scene.output <:+ loc) :
    ¬ scene.source <:+ loc := fun hsource =>
  (suffix_or_suffix hsource h).elim apart.sourceApart apart.outputApart

theorem Apart.not_hidden_of_output (apart : scene.Apart) (h : scene.output <:+ loc) :
    ¬ scene.Hidden loc := fun hhidden => apart.not_source_of_output h hhidden.source

theorem Own.output (h : scene.Own loc) : scene.output <:+ loc := (List.suffix_cons _ _).trans h

theorem Apart.not_own_of_source (apart : scene.Apart) (h : scene.source <:+ loc) :
    ¬ scene.Own loc := fun hown => apart.not_source_of_output hown.output h

theorem hidden_append : scene.Hidden (names.reverse ++ scene.source) ↔
    ([scene.module] <+: names ∧ names ≠ [scene.module]) ∨
    ([typesName, enumsName, scene.module] <+: names ∧
      names ≠ [typesName, enumsName, scene.module]) := by
  have hbeneath : ∀ first : List String,
      Beneath (first.reverse ++ scene.source) (names.reverse ++ scene.source) ↔
        first <+: names ∧ names ≠ first := by
    intro first
    rw [Beneath, reverse_append_suffix, ne_eq, ne_eq, List.append_left_inj, List.reverse_inj]
  exact or_congr (hbeneath [scene.module]) (hbeneath [typesName, enumsName, scene.module])

theorem Apart.not_hidden_of_reads (apart : scene.Apart) (hmodule : module ≠ scene.module)
    (hreads : Reads module names) {first : List String} (hfirst : first <+: names) :
    ¬ scene.Hidden (first.reverse ++ scene.source) := by
  rw [hidden_append]
  rintro (⟨hown, -⟩ | ⟨henums, hne⟩)
  · have hhead := hown.trans hfirst
    cases hreads with
    | own => exact hmodule (List.cons_prefix_cons.1 hhead).1.symm
    | enums => exact apart.notTypes (List.cons_prefix_cons.1 hhead).1
  · cases hreads with
    | own short =>
      -- at most three names, so that none is left below the directory of enums
      have hlength := hfirst.length_le
      simp only [List.length_cons] at hlength
      refine hne (henums.eq_of_length_le ?_).symm
      simp only [List.length_cons, List.length_nil]
      omega
    | enums =>
      have hhead := henums.trans hfirst
      simp only [List.cons_prefix_cons, true_and] at hhead
      exact hmodule hhead.1.symm

end Locations

section Disks
variable {scene : Scene} {grounds : List FileTree} {disk other before : Disk} {loc : Location}
  {module : String} {names : List String} {entry : Entry} {tree tree' : FileTree}

theorem Sound.put (h : scene.Sound grounds disk) (hloc : scene.output <:+ loc)
    (hentry : ∀ target, entry ≠ .link target) (hput : disk.tree.put? loc entry = some tree) :
    scene.Sound grounds { disk with tree } where
  stands := h.stands.put (h.noLink (Or.inr hloc)) hput
  noLink hplain := (h.noLink hplain).put hentry hput

theorem Sound.written (h : scene.Sound grounds disk) (written : List Location) :
    scene.Sound grounds { disk with written } := ⟨⟨h.stands.home, h.stands.keeps⟩, h.noLink⟩

theorem leads_sourcePath
    (h : scene.setup.settings.sourceRoot.Leads grounds scene.home scene.source [])
    (hnames : ∀ name ∈ names, IsName name) :
    (sourcePath scene.setup.settings names).Leads grounds scene.home scene.source names := by
  induction names using List.reverseRecOn with
  | nil => exact h
  | append_singleton names name ih =>
    rw [sourcePath_concat]
    exact (ih fun name hname => hnames name (List.mem_append_left _ hname)).join
      (hnames name (by simp))

theorem grounded_alike : Grounded (scene.Alike grounds) grounds scene.home :=
  ⟨fun h => h.sound.stands, fun h => h.sound'.stands⟩

theorem grounded_touched : Grounded (scene.Touched grounds before) grounds scene.home :=
  ⟨fun h => h.sound.stands, fun h => h.eq ▸ h.sound.stands⟩

theorem Alike.agrees (h : scene.Alike grounds disk other) (fits : scene.Fits grounds)
    (hsource : scene.source <:+ loc) (hhidden : ¬ scene.Hidden loc) :
    disk.tree.Agrees other.tree loc :=
  ⟨h.same hhidden (fits.not_own_of_source hsource), h.sound.noLink (Or.inl ⟨hsource, hhidden⟩)⟩

theorem Alike.along_agrees (h : scene.Alike grounds disk other) (fits : scene.Fits grounds)
    (hshown : ∀ first, first <+: names → ¬ scene.Hidden (first.reverse ++ scene.source)) :
    Along (disk.tree.Agrees other.tree) scene.source names :=
  along_of_forall fun first _ hfirst =>
    h.agrees fits (List.suffix_append _ _) (hshown first hfirst)

theorem Alike.entry_sourcePath (h : scene.Alike grounds disk other) (fits : scene.Fits grounds)
    (hnames : ∀ name ∈ names, IsName name)
    (hshown : ∀ first, first <+: names → ¬ scene.Hidden (first.reverse ++ scene.source)) :
    disk.entry (sourcePath scene.setup.settings names) =
      other.entry (sourcePath scene.setup.settings names) :=
  (leads_sourcePath fits.source hnames).entry_congr h.sound.stands h.sound'.stands
    (h.along_agrees fits hshown)

theorem Alike.list_sourcePath (h : scene.Alike grounds disk other) (fits : scene.Fits grounds)
    (hnames : ∀ name ∈ names, IsName name)
    (hshown : ∀ first name, first <+: names ++ [name] →
      ¬ scene.Hidden (first.reverse ++ scene.source)) :
    disk.list (sourcePath scene.setup.settings names) =
      other.list (sourcePath scene.setup.settings names) := by
  refine (leads_sourcePath fits.source hnames).list_congr h.sound.stands h.sound'.stands
    (h.along_agrees fits fun first hfirst => ?_) fun name => ?_
  · exact hshown first "" (hfirst.trans (List.prefix_append _ _))
  · have hshown := hshown (names ++ [name]) name (List.prefix_refl _)
    rw [List.reverse_append, List.reverse_singleton, List.singleton_append, List.cons_append]
      at hshown
    exact (h.agrees fits ((List.suffix_append _ _).trans (List.suffix_cons _ _)) hshown).1

theorem Fits.writable_alike (fits : scene.Fits grounds) (hmodule : module ≠ scene.module) :
    Writable (scene.Alike grounds) fun loc => (module :: scene.output) <:+ loc := by
  have houtput : ∀ {loc}, (module :: scene.output) <:+ loc → scene.output <:+ loc :=
    fun h => (List.suffix_cons _ _).trans h
  refine ⟨fun h hloc => ⟨h.same ?_ ?_, ?_⟩, fun h hloc hentry hd he => ?_, fun h hloc => ?_⟩
  · exact fits.not_hidden_of_output (houtput hloc)
  · intro hown
    refine hmodule ?_
    rcases suffix_or_suffix hloc hown with hsuffix | hsuffix
    · exact (List.cons.inj (hsuffix.eq_of_length rfl)).1
    · exact (List.cons.inj (hsuffix.eq_of_length rfl)).1.symm
  · exact h.sound.noLink (Or.inr (houtput hloc))
  · refine ⟨h.sound.put (houtput hloc) hentry hd, h.sound'.put (houtput hloc) hentry he, ?_⟩
    intro loc hhidden hown
    simp only [FileTree.find?_put? hd, FileTree.find?_put? he, h.same hhidden hown]
  · exact ⟨h.sound.written _, h.sound'.written _, h.same⟩

theorem Fits.site_alike (fits : scene.Fits grounds) (hmodule : module ≠ scene.module)
    (hname : IsName module) :
    Site (scene.Alike grounds) scene.setup.settings grounds scene.home scene.output module where
  name := hname
  extension := fits.extension
  grounded := grounded_alike
  leads := fits.output
  own := fits.writable_alike hmodule
  entry := fun hreads hnames h => h.entry_sourcePath fits hnames fun _ hfirst =>
    fits.not_hidden_of_reads hmodule hreads hfirst
  list := by
    intro names d e hlists hnames h
    refine h.list_sourcePath fits hnames fun first name hfirst => ?_
    have hreads : Reads module (names ++ [name]) := by
      cases hlists with
      | own short => exact .own (by simpa using short)
      | enums => exact .enums
    exact fits.not_hidden_of_reads hmodule hreads hfirst

theorem writable_touched :
    Writable (scene.Touched grounds before) fun loc => (scene.module :: scene.output) <:+ loc := by
  refine ⟨fun h hloc => ?_, fun h hloc hentry hd he => ?_, fun h hloc => ?_⟩
  · obtain ⟨hsound, rfl, -⟩ := h
    exact ⟨rfl, hsound.noLink (Or.inr (Own.output hloc))⟩
  · obtain ⟨hsound, rfl, hsame⟩ := h
    obtain rfl := Option.some.inj (hd.symm.trans he)
    refine ⟨hsound.put (Own.output hloc) hentry hd, rfl, fun {other} hown => ?_⟩
    have hne : ¬ _ = other := fun heq => hown (heq ▸ hloc)
    exact (FileTree.find?_put? hd other).trans ((if_neg hne).trans (hsame hown))
  · obtain ⟨hsound, rfl, hsame⟩ := h
    exact ⟨hsound.written _, rfl, hsame⟩

theorem Fits.site_touched (fits : scene.Fits grounds) (hname : IsName scene.module) :
    Site (scene.Touched grounds before) scene.setup.settings grounds scene.home scene.output
      scene.module where
  name := hname
  extension := fits.extension
  grounded := grounded_touched
  leads := fits.output
  own := writable_touched
  entry := fun _ _ h => by rw [h.eq]
  list := fun _ _ h => by rw [h.eq]

theorem not_hidden_of_prefix_singleton {name : String} {first : List String}
    (h : first <+: [name]) : ¬ scene.Hidden (first.reverse ++ scene.source) := by
  have hlength := h.length_le
  rw [hidden_append]
  rintro (⟨hown, hne⟩ | ⟨henums, -⟩)
  · exact hne (hown.eq_of_length_le hlength).symm
  · have hlong := Nat.le_trans henums.length_le hlength
    simp at hlong

theorem Fits.isName_rootFile (fits : scene.Fits grounds) {stem : String}
    (hstem : stem ∈ indexStem :: copiedStems) :
    IsName (scene.setup.settings.sdk.fileName stem) := by
  have hname : IsName stem := by
    revert stem
    decide
  exact isName_fileName hname fits.extension

theorem Fits.rootFiles_alike (fits : scene.Fits grounds) :
    RootFiles (scene.Alike grounds) scene.setup.settings := by
  refine ⟨fun {stem d e} hstem h => ?_, fun {stem d e loc entry} hstem h hentry d' e' h' => ?_⟩
  · have hpath : scene.setup.settings.sdk.rootFile stem =
      sourcePath scene.setup.settings [scene.setup.settings.sdk.fileName stem] := rfl
    rw [hpath]
    exact h.entry_sourcePath fits (by simpa using fits.isName_rootFile hstem) fun _ hfirst =>
      not_hidden_of_prefix_singleton hfirst
  · have hname := fits.isName_rootFile hstem
    have hleads := fits.source.join hname
    have hnames : Along (d.tree.Agrees e.tree) scene.source
        [scene.setup.settings.sdk.fileName stem] :=
      h.along_agrees fits fun _ hfirst => not_hidden_of_prefix_singleton hfirst
    obtain ⟨rfl, -⟩ := hleads.entry_eq_ok h.sound.stands (hnames.imp fun _ h => h.2) hentry
    exact h'.agrees fits (List.suffix_append _ _)
      (not_hidden_of_prefix_singleton (List.prefix_refl [scene.setup.settings.sdk.fileName stem]))

theorem Fits.rootFiles_touched (fits : scene.Fits grounds) :
    RootFiles (scene.Touched grounds before) scene.setup.settings := by
  refine ⟨fun hstem h => by rw [h.eq], fun {stem d e loc entry} hstem h hentry d' e' h' => ?_⟩
  have hleads := fits.source.join (fits.isName_rootFile hstem)
  have hplain : scene.Plain (scene.setup.settings.sdk.fileName stem :: scene.source) :=
    Or.inl ⟨List.suffix_cons _ _, not_hidden_of_prefix_singleton
      (List.prefix_refl [scene.setup.settings.sdk.fileName stem])⟩
  have hnames : Along d.tree.NoLink scene.source [scene.setup.settings.sdk.fileName stem] :=
    ⟨h.sound.noLink hplain, trivial⟩
  obtain ⟨rfl, -⟩ := hleads.entry_eq_ok h.sound.stands hnames hentry
  exact ⟨by rw [h'.eq], h'.sound.noLink hplain⟩

end Disks

end Scene

end Unbundle.Build
