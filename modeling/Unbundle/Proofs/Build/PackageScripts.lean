import Unbundle.Proofs.Build.Scripts

/-! The files of a package go by scripts. The implementation files of a module are its source files
adapted, each from the text that the source has for it, and the core package is made of three files
of the source root. -/

namespace Unbundle.Build
open Unbundle.Files Unbundle.Implementation
open Unbundle.Files.FileTree (Along)

namespace Workplace

def adapted (w : Workplace) (dir : List String) (context : Context) (name text : String) : Deed :=
  .text w.setup.settings.outputRoot dir name (adaptSource w.setup.settings.imports context text)

/-- The source has a text file, by names below the source root. -/
def HasText (w : Workplace) (names : List String) (text : String) : Prop :=
  ∃ bytes, w.ready.tree.find? (names.reverse ++ w.source) = some (.file bytes) ∧
    String.fromUTF8? bytes = some text

/-- The deeds that the implementation files of a module can be made of. -/
inductive IsAdapted (w : Workplace) (module : String) : Deed → Prop where
  | directory : IsAdapted w module (.make [module])
  | file {name text} (isName : IsName name) (has : w.HasText [module, name] text) :
    IsAdapted w module
      (w.adapted [module] (w.setup.settings.adapter.moduleContext module name) name text)
  | versionDirectory {version} (isName : IsName version)
    (found : w.ready.tree.find? (version :: module :: w.source) = some .directory) :
    IsAdapted w module (.make [module, version])
  | versionFile {version name text} (isVersion : IsName version) (isName : IsName name)
    (found : w.ready.tree.find? (version :: module :: w.source) = some .directory)
    (has : w.HasText [module, version, name] text) :
    IsAdapted w module (w.adapted [module, version]
      (w.setup.settings.adapter.versionContext module version name) name text)

/-- The deeds that the core package can be made of. -/
inductive IsCore (w : Workplace) : Deed → Prop where
  | directory : IsCore w (.make [coreName])
  | file {blame stem content} (root : stem ∈ indexStem :: copiedStems) :
    IsCore w (.write blame [coreName] (fileName stem w.setup.settings.extension) content)

/-- What is done for a file of a version. -/
def AdaptsVersionFile (w : Workplace) (module version : String) (entry : String × Entry)
    (deeds : List Deed) : Prop :=
  ∃ text, w.HasText [module, version, entry.1] text ∧ w.adapted [module, version]
    (w.setup.settings.adapter.versionContext module version entry.1) entry.1 text ∈ deeds

/-- What is done for an entry of a module's directory. -/
def AdaptsEntry (w : Workplace) (module : String) (entry : String × Entry)
    (deeds : List Deed) : Prop :=
  match entry.2 with
  | .file _ => ∃ text, w.HasText [module, entry.1] text ∧ w.adapted [module]
      (w.setup.settings.adapter.moduleContext module entry.1) entry.1 text ∈ deeds
  | .directory => ∀ child ∈ w.ready.tree.children (entry.1 :: module :: w.source),
      w.AdaptsVersionFile module entry.1 child deeds
  | .link _ => True

section Deeds
variable {w : Workplace} {module version : String} {deed : Deed} {deeds more : List Deed}
  {entry : String × Entry}

theorem isName_rootFile (hextension : '/' ∉ w.setup.settings.extension.toList) {stem : String}
    (hstem : stem ∈ indexStem :: copiedStems) :
    IsName (fileName stem w.setup.settings.extension) := by
  have hname : IsName stem := by
    revert stem
    decide
  exact isName_fileName hname hextension

theorem IsCore.named (h : w.IsCore deed) (hextension : '/' ∉ w.setup.settings.extension.toList) :
    deed.Named := by
  have hcore : ∀ name ∈ [coreName], IsName name := List.forall_mem_singleton.2 (by decide)
  cases h with
  | directory => exact ⟨by simp, hcore⟩
  | file hroot => exact ⟨hcore, isName_rootFile hextension hroot⟩

theorem AdaptsVersionFile.mono (hmore : ∀ deed ∈ deeds, deed ∈ more)
    (h : w.AdaptsVersionFile module version entry deeds) :
    w.AdaptsVersionFile module version entry more := by
  obtain ⟨text, htext, hmem⟩ := h
  exact ⟨text, htext, hmore _ hmem⟩

theorem AdaptsEntry.mono (hmore : ∀ deed ∈ deeds, deed ∈ more)
    (h : w.AdaptsEntry module entry deeds) : w.AdaptsEntry module entry more := by
  obtain ⟨name, found⟩ := entry
  cases found with
  | file content =>
    obtain ⟨text, htext, hmem⟩ := h
    exact ⟨text, htext, hmore _ hmem⟩
  | directory => exact fun child hchild => (h child hchild).mono hmore
  | link target => trivial

end Deeds

section Source
variable {w : Workplace} {made : List (List String)} {kind : Deed → Prop} {d e : Disk}
  {names : List String} {name : String} {among : Disk → Prop}

theorem Underway.list_source (h : w.Underway d) (hnames : ∀ name ∈ names, IsName name)
    (hfound : w.ready.tree.find? (names.reverse ++ w.source) = some .directory)
    {entries : List (String × Entry)}
    (hlist : d.list (sourcePath w.setup.settings names) = .ok entries) :
    entries = w.ready.tree.children (names.reverse ++ w.source) := by
  have hleads := (w.leads_sourcePath hnames).enter (List.forall_mem_singleton.2 hfound)
  unfold Disk.list at hlist
  cases hentry : d.entry (sourcePath w.setup.settings names) with
  | error fault => simp [hentry, bind, Except.bind] at hlist
  | ok place =>
    obtain ⟨loc, entry⟩ := place
    obtain ⟨rfl, -⟩ := hleads.entry_eq_ok h.over trivial hentry
    rw [hentry] at hlist
    simp only [bind, Except.bind] at hlist
    split at hlist
    · cases hlist
      exact FileTree.children_congr fun name =>
        h.find?_source ((List.suffix_append _ _).trans (List.suffix_cons _ _))
    · cases hlist

theorem Underway.readText_source (h : w.Underway d) (hnames : ∀ name ∈ names, IsName name)
    (hname : IsName name) (hfound : w.ready.tree.find? (names.reverse ++ w.source) = some .directory)
    {bytes : ByteArray}
    (hfile : w.ready.tree.find? (name :: (names.reverse ++ w.source)) = some (.file bytes))
    {text : String}
    (htext : d.readText (sourcePath w.setup.settings (names ++ [name])) = .ok text) :
    String.fromUTF8? bytes = some text := by
  have hleads := ((w.leads_sourcePath hnames).enter (List.forall_mem_singleton.2 hfound)).join hname
  have hsame : d.tree.find? (name :: (names.reverse ++ w.source)) = some (.file bytes) :=
    (h.find?_source ((List.suffix_append _ _).trans (List.suffix_cons _ _))).trans hfile
  have hlink : Along d.tree.NoLink (names.reverse ++ w.source) [name] := by
    refine ⟨fun target htarget => ?_, trivial⟩
    rw [hsame] at htarget
    cases htarget
  rw [sourcePath_concat] at htext
  unfold Disk.readText Disk.readBytes at htext
  cases hentry : d.entry ((sourcePath w.setup.settings names).join name) with
  | error fault => simp [hentry, bind, Except.bind] at htext
  | ok place =>
    obtain ⟨loc, entry⟩ := place
    obtain ⟨rfl, hentry'⟩ := hleads.entry_eq_ok h.over hlink hentry
    obtain rfl : .file bytes = entry := Option.some.inj (hsame.symm.trans hentry')
    simp only [hentry, bind, Except.bind] at htext
    split at htext
    · next hdecoded =>
      cases htext
      exact hdecoded
    · cases htext

theorem Scripted.list (hnames : ∀ name ∈ names, IsName name)
    (hfound : w.ready.tree.find? (names.reverse ++ w.source) = some .directory) :
    w.Scripted made kind (Work.list (sourcePath w.setup.settings names)) fun entries deeds =>
      deeds = [] ∧ entries = w.ready.tree.children (names.reverse ++ w.source) := by
  have hlook : ∀ {among d e}, w.Steady made among → among d → among e →
      InStep (fun x y => x = d ∧ y = e) (Work.list (sourcePath w.setup.settings names))
        fun entries d => d.list (sourcePath w.setup.settings names) = .ok entries :=
    fun hsteady hd he => InStep.at (.ofDisk
      (fun x y ⟨hx, hy⟩ => hx ▸ hy ▸ hsteady.list hd he hnames) fun _ _ _ _ hlist => hlist)
  exact .look hlook fun hd hlist => ⟨rfl, hd.list_source hnames hfound hlist⟩

theorem Scripted.readText (hnames : ∀ name ∈ names, IsName name) (hname : IsName name)
    (hfound : w.ready.tree.find? (names.reverse ++ w.source) = some .directory) {bytes : ByteArray}
    (hfile : w.ready.tree.find? (name :: (names.reverse ++ w.source)) = some (.file bytes)) :
    w.Scripted made kind (Work.readText (sourcePath w.setup.settings (names ++ [name])))
      fun text deeds => deeds = [] ∧ w.HasText (names ++ [name]) text := by
  have hall : ∀ other ∈ names ++ [name], IsName other :=
    List.forall_mem_append.2 ⟨hnames, List.forall_mem_singleton.2 hname⟩
  have hloc : (names ++ [name]).reverse ++ w.source = name :: (names.reverse ++ w.source) := by simp
  have hlook : ∀ {among d e}, w.Steady made among → among d → among e →
      InStep (fun x y => x = d ∧ y = e)
        (Work.readText (sourcePath w.setup.settings (names ++ [name])))
        fun text d => d.readText (sourcePath w.setup.settings (names ++ [name])) = .ok text := by
    refine fun {among d e} hsteady hd he => InStep.at (.ofDisk (fun x y ⟨hx, hy⟩ => ?_)
      fun _ _ _ _ htext => htext)
    subst hx hy
    simp only [Disk.readText, Disk.readBytes, hsteady.entry hd he hall]
  refine .look hlook fun hd htext => ⟨rfl, bytes, by rw [hloc, hfile], ?_⟩
  exact hd.readText_source hnames hname hfound hfile htext

end Source

section Implementation
variable {w : Workplace} {made : List (List String)} {kind : Deed → Prop}
  {module version name : String} {dir : List String} {context : Context}

theorem Scripted.adaptFile {names : List String} (hnames : ∀ name ∈ names, IsName name)
    (hname : IsName name) (hdir : ∀ name ∈ dir, IsName name) (hmade : dir ∈ made)
    (hfound : w.ready.tree.find? (names.reverse ++ w.source) = some .directory) {bytes : ByteArray}
    (hfile : w.ready.tree.find? (name :: (names.reverse ++ w.source)) = some (.file bytes))
    (hkind : ∀ {text}, w.HasText (names ++ [name]) text → kind (w.adapted dir context name text)) :
    w.Scripted made kind (w.setup.settings.adapter.adaptFile context
        ((sourcePath w.setup.settings names).join name)
        ((w.setup.settings.outputRoot.joins dir).join name))
      fun _ deeds => ∃ text, w.HasText (names ++ [name]) text ∧
        w.adapted dir context name text ∈ deeds := by
  unfold Adapter.adaptFile
  rw [← sourcePath_concat]
  refine .bind (.readText hnames hname hfound hfile)
    fun text deeds made' ⟨hdeeds, htext⟩ hwide _ => ?_
  subst hdeeds
  have hdeed : w.Scripted made' kind
      ((w.adapted dir context name text).work w.setup.settings.outputRoot)
      fun _ done => done = [w.adapted dir context name text] :=
    .ofDeed ⟨hdir, hname⟩ (hkind htext) (hwide dir hmade)
  refine Scripted.imp (Q := fun _ done => done = [w.adapted dir context name text]) hdeed
    fun _ done hdone => ⟨text, htext, ?_⟩
  subst hdone
  exact List.mem_singleton_self _

theorem Scripted.makeDirectories {names : List String} (hne : names ≠ [])
    (hnames : ∀ name ∈ names, IsName name) (hkind : kind (.make names)) :
    w.Scripted made kind (Work.makeDirectories (w.setup.settings.outputRoot.joins names))
      fun _ deeds => deeds = [.make names] := by
  have hdeed : w.Scripted made kind ((Deed.make names).work w.setup.settings.outputRoot)
      fun _ deeds => deeds = [.make names] := .ofDeed ⟨hne, hnames⟩ hkind trivial
  exact hdeed

theorem adaptVersion_eq : w.setup.settings.adapter.adaptVersion module version = (do
    Work.makeDirectories (w.setup.settings.outputRoot.joins [module, version])
    let entries ← Work.list (sourcePath w.setup.settings [module, version])
    entries.forM (w.setup.settings.adapter.adaptVersionEntry module version
      (sourcePath w.setup.settings [module, version])
      (w.setup.settings.outputRoot.joins [module, version]))
    return entries.length) := rfl

theorem adaptModule_eq : w.setup.settings.adapter.adaptModule module = (do
    Work.makeDirectories (w.setup.settings.outputRoot.joins [module])
    let entries ← Work.list (sourcePath w.setup.settings [module])
    entries.foldlM (w.setup.settings.adapter.adaptModuleEntry module
      (sourcePath w.setup.settings [module]) (w.setup.settings.outputRoot.joins [module])) {}) :=
  rfl

theorem Scripted.adaptVersion (hmodule : IsName module) (hversion : IsName version)
    (hfound : w.ready.tree.find? (version :: module :: w.source) = some .directory) :
    w.Scripted made (w.IsAdapted module) (w.setup.settings.adapter.adaptVersion module version)
      fun _ deeds => ∀ child ∈ w.ready.tree.children (version :: module :: w.source),
        w.AdaptsVersionFile module version child deeds := by
  have hnames : ∀ name ∈ [module, version], IsName name :=
    List.forall_mem_cons.2 ⟨hmodule, List.forall_mem_singleton.2 hversion⟩
  have hmake : w.Scripted made (w.IsAdapted module)
      (Work.makeDirectories (w.setup.settings.outputRoot.joins [module, version]))
      fun _ deeds => deeds = [.make [module, version]] :=
    .makeDirectories (by simp) hnames (.versionDirectory hversion hfound)
  rw [adaptVersion_eq]
  refine .bind hmake fun _ deeds made' hdeeds _ hmade => ?_
  have hmade : [module, version] ∈ made' := hmade _ (hdeeds ▸ List.mem_singleton_self _)
  refine .bind (.list hnames hfound) fun entries deeds made'' ⟨_, hentries⟩ hwide _ => ?_
  have hloop : w.Scripted made'' (w.IsAdapted module)
      (entries.forM (w.setup.settings.adapter.adaptVersionEntry module version
        (sourcePath w.setup.settings [module, version])
        (w.setup.settings.outputRoot.joins [module, version])))
      fun _ deeds => ∀ child ∈ entries, w.AdaptsVersionFile module version child deeds := by
    refine .forM (fun _ _ _ hmore h => h.mono hmore) fun child hchild made₃ hwide' => ?_
    obtain ⟨name, found⟩ := child
    rw [hentries] at hchild
    have hname : IsName name := FileTree.isName_of_mem_children hchild
    cases found with
    | file bytes =>
      exact .adaptFile hnames hname hnames (hwide' _ (hwide _ hmade)) hfound
        (FileTree.mem_children.1 hchild) fun htext => .versionFile hversion hname hfound htext
    | directory => exact .throw
    | link target => exact .throw
  refine .bind hloop fun _ done _ hdone _ _ => .pure fun child hchild => ?_
  refine (hdone child (hentries ▸ hchild)).mono fun deed hdeed => ?_
  simp [hdeed]

theorem Scripted.adaptModule (hmodule : IsName module)
    (hfound : w.ready.tree.find? (module :: w.source) = some .directory) :
    w.Scripted made (w.IsAdapted module) (w.setup.settings.adapter.adaptModule module)
      fun _ deeds => ∀ entry ∈ w.ready.tree.children (module :: w.source),
        w.AdaptsEntry module entry deeds := by
  have hnames : ∀ name ∈ [module], IsName name := List.forall_mem_singleton.2 hmodule
  have hmake : w.Scripted made (w.IsAdapted module)
      (Work.makeDirectories (w.setup.settings.outputRoot.joins [module]))
      fun _ deeds => deeds = [.make [module]] :=
    .makeDirectories (by simp) hnames .directory
  rw [adaptModule_eq]
  refine .bind hmake fun _ deeds made' hdeeds _ hmade => ?_
  have hmade : [module] ∈ made' := hmade _ (hdeeds ▸ List.mem_singleton_self _)
  refine .bind (.list hnames hfound) fun entries more made'' ⟨hmore, hentries⟩ hwide _ => ?_
  have hloop : w.Scripted made'' (w.IsAdapted module)
      (entries.foldlM (w.setup.settings.adapter.adaptModuleEntry module
        (sourcePath w.setup.settings [module])
        (w.setup.settings.outputRoot.joins [module])) {})
      fun _ deeds => ∀ entry ∈ entries, w.AdaptsEntry module entry deeds := by
    refine .foldlM (fun _ _ _ hmore h => h.mono hmore) fun summary entry hentry made₃ hwide' => ?_
    obtain ⟨name, found⟩ := entry
    rw [hentries] at hentry
    have hname : IsName name := FileTree.isName_of_mem_children hentry
    have hchild := FileTree.mem_children.1 hentry
    cases found with
    | file bytes =>
      refine .bind (.adaptFile hnames hname hnames (hwide' _ (hwide _ hmade)) hfound hchild
        fun htext => .file hname htext) fun _ done _ hdone _ _ => .pure ?_
      simpa [AdaptsEntry] using hdone
    | directory =>
      refine .bind (.adaptVersion hmodule hname hchild) fun _ done _ hdone _ _ => .pure ?_
      simpa [AdaptsEntry] using hdone
    | link target => exact .throw
  refine hloop.imp fun _ done hdone entry hentry => ?_
  refine (hdone entry (hentries ▸ hentry)).mono fun deed hdeed => ?_
  simp [hdeed]

end Implementation

section Core
variable {w : Workplace} {made : List (List String)} {d e : Disk} {among : Disk → Prop}
  {stem : String} {loc : Location} {entry : Entry} {content : ByteArray}

theorem rootFile_eq : w.setup.settings.sdk.rootFile stem =
    sourcePath w.setup.settings [fileName stem w.setup.settings.extension] := rfl

theorem isName_of_mem_rootFile (hextension : '/' ∉ w.setup.settings.extension.toList)
    (hstem : stem ∈ indexStem :: copiedStems) :
    ∀ name ∈ [fileName stem w.setup.settings.extension], IsName name :=
  List.forall_mem_singleton.2 (isName_rootFile hextension hstem)

def corePath (w : Workplace) (stem : String) : Files.Path :=
  (w.setup.settings.outputRoot.joins [coreName]).join (fileName stem w.setup.settings.extension)

theorem Underway.copied_source (h : w.Underway d) (hmade : d.tree.Has w.output [[coreName]])
    (hextension : '/' ∉ w.setup.settings.extension.toList) (hstem : stem ∈ indexStem :: copiedStems)
    (hloc : w.source <:+ loc) : d.copied (w.corePath stem) loc content = content := by
  have hname := isName_rootFile hextension hstem
  have hcore := List.forall_mem_singleton.1 hmade
  have hleads := h.standing.leads_directory (List.forall_mem_singleton.2 (by decide)) hcore
  have houtput : w.output <:+
      fileName stem w.setup.settings.extension :: ([coreName].reverse ++ w.output) :=
    (List.suffix_append _ _).trans (List.suffix_cons _ _)
  have htarget := hleads.target_join hname (h.standing.noLink houtput)
  unfold Disk.copied corePath
  rw [htarget]
  split
  · next copied hcopied =>
    rw [if_neg]
    rintro rfl
    split at hcopied
    · cases hcopied
    · cases hcopied
      exact w.not_source_of_output houtput hloc
  · rfl

theorem Steady.copied (h : w.Steady made among) (hd : among d) (he : among e)
    (hmade : [coreName] ∈ made) (hextension : '/' ∉ w.setup.settings.extension.toList)
    (hstem : stem ∈ indexStem :: copiedStems)
    (hentry : d.entry (w.setup.settings.sdk.rootFile stem) = .ok (loc, entry)) :
    e.copied (w.corePath stem) loc content = d.copied (w.corePath stem) loc content := by
  rcases h.reads with hlinks | hone
  · have hhas : ∀ {x}, among x → x.tree.Has w.output [[coreName]] := fun hx =>
      List.forall_mem_singleton.2 (h.has hx _ hmade)
    have hnames := isName_of_mem_rootFile hextension hstem
    have hlink := ((h.underway hd).along_agrees (h.underway hd) hlinks
      [fileName stem w.setup.settings.extension]).imp fun _ h => h.2
    obtain ⟨rfl, -⟩ := (w.leads_sourcePath hnames).entry_eq_ok (h.underway hd).over hlink hentry
    rw [(h.underway he).copied_source (hhas he) hextension hstem (List.suffix_append _ _),
      (h.underway hd).copied_source (hhas hd) hextension hstem (List.suffix_append _ _)]
  · rw [hone hd he]

def copyScript (w : Workplace) (stem : String) (d : Disk) : Script Unit :=
  let source := w.setup.settings.sdk.rootFile stem
  match d.entry source with
  | .ok (loc, .file content) =>
    ⟨[.write source [coreName] (fileName stem w.setup.settings.extension)
      (d.copied (w.corePath stem) loc content)], .ok ()⟩
  | .ok _ => ⟨[], .error (.io source .notRegularFile)⟩
  | .error fault => ⟨[], .error (.io source fault)⟩

theorem mem_copyScript {deed : Deed} (hstem : stem ∈ indexStem :: copiedStems)
    (h : deed ∈ (w.copyScript stem d).deeds) : w.IsCore deed ∧ deed.FoundedOn [[coreName]] := by
  have hcore : [coreName] ∈ [[coreName]] := List.mem_singleton_self _
  unfold copyScript at h
  simp only at h
  split at h
  · rw [List.mem_singleton] at h
    subst h
    exact ⟨.file hstem, hcore⟩
  · cases h
  · cases h

theorem Steady.copyScript (h : w.Steady made among) (hd : among d) (he : among e)
    (hmade : [coreName] ∈ made) (hextension : '/' ∉ w.setup.settings.extension.toList)
    (hstem : stem ∈ indexStem :: copiedStems) : w.copyScript stem e = w.copyScript stem d := by
  have hsame : e.entry (w.setup.settings.sdk.rootFile stem) =
      d.entry (w.setup.settings.sdk.rootFile stem) := by
    rw [rootFile_eq]
    exact h.entry he hd (isName_of_mem_rootFile hextension hstem)
  unfold Workplace.copyScript
  simp only
  rw [hsame]
  split
  · next hentry => rw [h.copied hd he hmade hextension hstem hentry]
  · rfl
  · rfl

theorem Underway.run_copyCoreFile (h : w.Underway d)
    (hextension : '/' ∉ w.setup.settings.extension.toList)
    (hstem : stem ∈ indexStem :: copiedStems) :
    (copyCoreFile w.setup.settings.sdk (.core w.setup.settings.packages) stem).run.run d =
      ((w.copyScript stem d).work w.setup.settings.outputRoot).run.run d := by
  have hrun : (copyCoreFile w.setup.settings.sdk (.core w.setup.settings.packages) stem).run.run d =
      (((DiskM.copyFile (w.setup.settings.sdk.rootFile stem) (w.corePath stem)).run.run d).1.mapError
        (.io (w.setup.settings.sdk.rootFile stem)),
        ((DiskM.copyFile (w.setup.settings.sdk.rootFile stem) (w.corePath stem)).run.run d).2) :=
    rfl
  have hleads : (w.setup.settings.sdk.rootFile stem).Leads [d.tree] d.home w.source
      [fileName stem w.setup.settings.extension] := by
    rw [h.home]
    exact (w.leads_sourcePath (isName_of_mem_rootFile hextension hstem)).mono fun tree htree =>
      ⟨w.ready.tree, List.mem_singleton_self _, List.mem_singleton.1 htree ▸ h.keeps⟩
  rw [hrun, Script.run_work]
  cases hentry : d.entry (w.setup.settings.sdk.rootFile stem) with
  | error fault =>
    rw [DiskM.run_copyFile_error hentry]
    simp only [Workplace.copyScript, hentry]
    rfl
  | ok place =>
    obtain ⟨loc, entry⟩ := place
    cases entry with
    | directory =>
      rw [DiskM.run_copyFile_directory hentry]
      simp only [Workplace.copyScript, hentry]
      rfl
    | link target => exact absurd rfl (hleads.entry_ne_link hentry target)
    | file content =>
      rw [DiskM.run_copyFile hentry]
      simp only [Workplace.copyScript, hentry]
      rw [perform_singleton, Deed.run_write]
      unfold corePath
      generalize (DiskM.writeBytes _ _).run.run d = result
      obtain ⟨result, d'⟩ := result
      cases result <;> rfl

theorem Scripted.copyCoreFile (hextension : '/' ∉ w.setup.settings.extension.toList)
    (hstem : stem ∈ indexStem :: copiedStems) (hmade : [coreName] ∈ made) :
    w.Scripted made w.IsCore (copyCoreFile w.setup.settings.sdk (.core w.setup.settings.packages)
      stem) fun _ _ => True := by
  intro among hsteady
  by_cases hany : ∃ d, among d
  · obtain ⟨d, hd⟩ := hany
    refine ⟨w.copyScript stem d, ⟨fun deed hdeed => ?_, founded_of_forall fun deed hdeed => ?_,
      fun {e} he => ?_⟩, fun _ _ => trivial⟩
    · have hcore := (mem_copyScript hstem hdeed).1
      exact ⟨hcore.named hextension, hcore⟩
    · exact (mem_copyScript hstem hdeed).2.mono (List.forall_mem_singleton.2 hmade)
    · rw [← hsteady.copyScript hd he hmade hextension hstem]
      exact (hsteady.underway he).run_copyCoreFile hextension hstem
  · exact ⟨⟨[], .error (.unknownEntry ⟨""⟩)⟩, ⟨by simp, trivial, fun hd => absurd ⟨_, hd⟩ hany⟩,
      fun _ _ => trivial⟩

theorem Scripted.writeCore (hextension : '/' ∉ w.setup.settings.extension.toList) :
    w.Scripted made w.IsCore (writeCore w.setup.settings.sdk w.setup.settings.packages)
      fun _ _ => True := by
  have hcore : ∀ name ∈ [coreName], IsName name := List.forall_mem_singleton.2 (by decide)
  have hmake : w.Scripted made w.IsCore
      (Work.makeDirectories (w.setup.settings.outputRoot.joins [coreName]))
      fun _ deeds => deeds = [.make [coreName]] := .makeDirectories (by simp) hcore .directory
  have hread : ∀ {made}, w.Scripted made w.IsCore
      (Work.readText (w.setup.settings.sdk.rootFile indexStem)) fun _ _ => True := by
    refine .look (fun {among d e} hsteady hd he => InStep.at (.ofDisk (fun x y ⟨hx, hy⟩ => ?_)
      fun _ _ _ _ _ => trivial)) fun _ _ => trivial
    subst hx hy
    simp only [Disk.readText, Disk.readBytes, rootFile_eq,
      hsteady.entry hd he (isName_of_mem_rootFile hextension List.mem_cons_self)]
  unfold Unbundle.writeCore
  refine .bind hmake fun _ deeds made' hdeeds _ hmade => ?_
  have hmade : [coreName] ∈ made' := hmade _ (hdeeds ▸ List.mem_singleton_self _)
  refine .bind hread fun index _ made'' _ hwide _ => ?_
  have hwrite : w.Scripted made'' w.IsCore (Deed.work w.setup.settings.outputRoot
      (.text w.setup.settings.outputRoot [coreName]
        (fileName indexStem w.setup.settings.extension) (cutExports index))) fun _ _ => True :=
    (Scripted.ofDeed (IsCore.named (.file List.mem_cons_self) hextension)
      (.file List.mem_cons_self) (hwide _ hmade)).imp fun _ _ _ => trivial
  refine .bind (Q := fun _ _ => True) hwrite fun _ _ made₃ _ hwide' _ => ?_
  have hcopies : w.Scripted made₃ w.IsCore (copiedStems.forM
      (Unbundle.copyCoreFile w.setup.settings.sdk (.core w.setup.settings.packages)))
      fun _ _ => ∀ stem ∈ copiedStems, True :=
    .forM (G := fun _ _ => True) (fun _ _ _ _ h => h) fun stem hstem made₄ hwide'' =>
      .copyCoreFile hextension (List.mem_cons_of_mem _ hstem)
        (hwide'' _ (hwide' _ (hwide _ hmade)))
  exact .bind hcopies fun _ _ _ _ _ _ => .pure trivial

end Core

end Workplace

end Unbundle.Build
