import Unbundle.Proofs.Build.Opened
import Unbundle.Proofs.Build.Visits

/-! A module's directory is mirrored. Its implementation files are made by a walk through the
directory, and into an output root that was empty all that the walk visits is copied to where it
belongs, up to the first visit that gives offence. -/

namespace Unbundle.Build
open Unbundle.Files Unbundle.Implementation

namespace Workplace

section Visits
variable {w : Workplace} {module name : String} {version : Option String} {done : List Visit}
  {d : Disk} {content : ByteArray}

theorem Underway.leads_source (h : w.Underway d)
    (hfound : w.ready.tree.find? (w.sourceDir module version) = some .directory) :
    (w.sourceDirPath module version).Leads [d.tree] d.home (w.sourceDir module version) [] := by
  have hleads := (w.leads_sourcePath (FileTree.isName_of_names hfound)).enter
    (List.forall_mem_singleton.2 hfound)
  rw [h.home]
  exact hleads.mono fun tree htree =>
    ⟨w.ready.tree, List.mem_singleton_self _, List.mem_singleton.1 htree ▸ h.keeps⟩

theorem named_scopeDir
    (hfound : w.ready.tree.find? (w.sourceDir module version) = some .directory) :
    (Deed.make (scopeDir module version)).Named :=
  ⟨by cases version <;> simp [scopeDir], FileTree.isName_of_names hfound⟩

theorem Mirrors.run_makeDirectories (h : w.Mirrors module done d)
    (hfound : w.ready.tree.find? (w.sourceDir module version) = some .directory) :
    (Work.makeDirectories (w.packagePath module version)).run.run d =
      match (w.packagePath module version).fault? with
      | some fault => (.error (.io (w.packagePath module version) fault), d)
      | none => ((d.tree.pave w.output (scopeDir module version)).1.mapError
          (.io (w.packagePath module version)),
        { d with tree := (d.tree.pave w.output (scopeDir module version)).2 }) :=
  h.underway.standing.run_make (named_scopeDir hfound)

theorem Mirrors.exists_above (h : w.Mirrors module done d)
    (hmade : version ≠ none → .makes none ∈ done) : ∃ names name,
    scopeDir module version = names ++ [name] ∧
      d.tree.find? (names.reverse ++ w.output) = some .directory := by
  cases version with
  | none => exact ⟨[], module, rfl, h.underway.standing.leads.find? (Disk.over_self _)⟩
  | some version =>
    refine ⟨[module], version, rfl, (h.find?_iff _ _).2 (.inr ?_)⟩
    exact ⟨.makes none, hmade (by simp), rfl⟩

theorem Mirrors.exists_make (h : w.Mirrors module done d) (fresh : w.Fresh)
    (hfound : w.ready.tree.find? (w.sourceDir module version) = some .directory)
    (hmade : version ≠ none → .makes none ∈ done)
    (hfault : (w.packagePath module version).fault? = none) : ∃ d',
    (Work.makeDirectories (w.packagePath module version)).run.run d = (.ok (), d') ∧
      w.Mirrors module (done ++ [.makes version]) d' := by
  obtain ⟨names, name, heq, habove⟩ := h.exists_above hmade
  have hvisit : (Visit.makes version).In w module := hfound
  have hloc : w.packageDir module version = name :: (names.reverse ++ w.output) := by
    simp [packageDir, heq]
  have hopen : d.tree.Open (w.packageDir module version) := h.find?_of_copy? fresh hvisit rfl
  rw [hloc] at hopen
  obtain ⟨made, hpave, hfind⟩ := FileTree.pave_concat_of_open habove hopen
    (FileTree.isFileName_of_names hfound name (by simp [heq]))
  have hrun : ((Deed.make (scopeDir module version)).work w.setup.settings.outputRoot).run.run d =
      (.ok (), { d with tree := made }) := by
    refine (h.run_makeDirectories hfound).trans ?_
    rw [hfault, heq, hpave]
    rfl
  have hwithin : (Deed.make (scopeDir module version)).Within anywhere := fun _ _ _ => trivial
  have hmarks := (Deed.make_congr h.underway.standing h.underway.standing
    (named_scopeDir hfound) hwithin (.refl _ _ _)).2
  rw [hrun] at hmarks
  refine ⟨_, hrun, h.put fresh (h.underway.marks hmarks) hvisit rfl ?_⟩
  rwa [hloc]

theorem walks_makes (fresh : w.Fresh)
    (hfound : w.ready.tree.find? (w.sourceDir module version) = some .directory)
    (hmade : version ≠ none → .makes none ∈ done) :
    w.Walks module done [.makes version]
      (Work.makeDirectories (w.packagePath module version)) () := by
  cases hfault : (w.packagePath module version).fault? with
  | some fault =>
    have hoffence : w.offence? module (.makes version) =
        some (.io (w.packagePath module version) fault) := by
      simp [offence?, hfault]
    refine .error hoffence fun hd => ?_
    rw [hd.run_makeDirectories hfound, hfault]
  | none =>
    exact .ok (by simp [offence?, hfault]) fun hd => hd.exists_make fresh hfound hmade hfault

theorem walks_lists
    (hfound : w.ready.tree.find? (w.sourceDir module version) = some .directory) :
    w.Walks module done [.lists version]
      (Work.list (w.sourceDirPath module version))
      (w.ready.tree.children (w.sourceDir module version)) := by
  have hrun : ∀ {d : Disk} {path : Files.Path},
      (Work.list path).run.run d = ((d.list path).mapError (.io path), d) := by
    intro d path
    rw [Work.list, Work.at, run_adapt, run_ofDisk]
  cases hfault : (w.sourceDirPath module version).fault? with
  | some fault =>
    have hoffence : w.offence? module (.lists version) =
        some (.io (w.sourceDirPath module version) fault) := by
      simp [offence?, hfault]
    refine .error hoffence fun hd => ?_
    rw [hrun, Disk.list, Disk.entry_of_fault hfault]
    rfl
  | none =>
    refine .ok (by simp [offence?, hfault]) fun {d} hd => ⟨d, ?_, hd.keep hfound rfl⟩
    have hentry := (hd.underway.leads_source hfound).entry_eq d.over_self hfault
    have hchildren : d.tree.children (w.sourceDir module version) =
        w.ready.tree.children (w.sourceDir module version) :=
      FileTree.children_congr fun name =>
        hd.underway.find?_source ((List.suffix_append _ _).trans (List.suffix_cons _ _))
    rw [hrun, Disk.list, hentry, ← hchildren]
    rfl

theorem Underway.readText_join (h : w.Underway d)
    (hfile : w.ready.tree.find? (name :: w.sourceDir module version) = some (.file content)) :
    d.readText ((w.sourceDirPath module version).join name) =
      match ((w.sourceDirPath module version).join name).fault?, String.fromUTF8? content with
      | some fault, _ => .error fault
      | none, none => .error .notText
      | none, some text => .ok text := by
  unfold Disk.readText Disk.readBytes
  cases hfault : ((w.sourceDirPath module version).join name).fault? with
  | some fault =>
    rw [Disk.entry_of_fault hfault]
    rfl
  | none =>
    have hsame : d.tree.find? (name :: w.sourceDir module version) = some (.file content) :=
      (h.find?_source ((List.suffix_append _ _).trans (List.suffix_cons _ _))).trans hfile
    have hlink : d.tree.NoLink (name :: w.sourceDir module version) := fun target htarget => by
      rw [hsame] at htarget
      cases htarget
    rw [(h.leads_source (FileTree.find?_dir hfile)).entry_join hfault hsame hlink]
    cases htext : String.fromUTF8? content <;> simp [bind, Except.bind, htext]

theorem Mirrors.exists_write {text : String} (h : w.Mirrors module done d) (fresh : w.Fresh)
    (hmade : .makes version ∈ done)
    (hfile : w.ready.tree.find? (name :: w.sourceDir module version) =
      some (.file content)) (htext : String.fromUTF8? content = some text) :
    match ((w.packagePath module version).join name).fault? with
    | some fault =>
      ((w.adaptedDeed module version name text).work w.setup.settings.outputRoot).run.run d =
        (.error (.io ((w.packagePath module version).join name) fault),
          d)
    | none => ∃ d',
      ((w.adaptedDeed module version name text).work w.setup.settings.outputRoot).run.run d =
        (.ok (), d') ∧ w.Mirrors module (done ++ [.adapts version name content]) d' := by
  have hsize : ¬ maxNameBytes < name.utf8ByteSize := Nat.not_lt.2 (FileTree.size_le_of_find? hfile)
  have hnamed : (w.adaptedDeed module version name text).Named :=
    ⟨FileTree.isName_of_names (FileTree.find?_dir hfile),
      isName_of_isFileName (FileTree.isFileName_of_find? hfile)⟩
  have hdir : d.tree.find? ((scopeDir module version).reverse ++ w.output) = some .directory :=
    (h.find?_iff _ _).2 (.inr ⟨_, hmade, rfl⟩)
  have hvisit : (Visit.adapts version name content).In w module := hfile
  have hcopy : w.copy? module (.adapts version name content) =
      some (name :: w.packageDir module version, .file (adaptSource w.setup.settings.imports
        (w.fileContext module version name) text).toUTF8) := by
    simp [copy?, htext]
  have hfree : d.tree.isDirectory (name :: w.packageDir module version) = false := by
    rcases h.find?_of_copy? fresh hvisit hcopy with hnone | hsame
    · simp [FileTree.isDirectory, hnone]
    · simp [FileTree.isDirectory, hsame]
  cases hfault :
      ((w.packagePath module version).join name).fault? with
  | some fault =>
    have hwrite : ((w.packagePath module version).join name).writeFault? name
        (d.tree.isDirectory (name :: w.packageDir module version)) = some fault := by
      rw [Path.writeFault?, hfault]
    exact h.underway.standing.run_write_error hnamed hdir hwrite
  | none =>
    have hwrite : ((w.packagePath module version).join name).writeFault? name
        (d.tree.isDirectory (name :: w.packageDir module version)) = none := by
      rw [Path.writeFault?, hfault, hfree]
      exact if_neg hsize
    obtain ⟨-, tree, htree, hrun⟩ := h.underway.standing.exists_run_write hnamed hdir hwrite
    have hwithin : (w.adaptedDeed module version name text).Within anywhere := trivial
    have hmarks := (Deed.write_congr h.underway.standing h.underway.standing hnamed hwithin hdir
      hdir (.refl _ _ _)).2
    rw [hrun] at hmarks
    exact ⟨_, hrun, h.put fresh (h.underway.marks hmarks) hvisit hcopy (FileTree.find?_put? htree)⟩

theorem Mirrors.run_adaptFile (h : w.Mirrors module done d)
    (hfile : w.ready.tree.find? (name :: w.sourceDir module version) = some (.file content)) :
    (w.setup.settings.adapter.adaptFile (w.fileContext module version name)
      ((w.sourceDirPath module version).join name)
      ((w.packagePath module version).join name)).run.run d =
      match ((w.sourceDirPath module version).join name).fault?, String.fromUTF8? content with
      | some fault, _ => (.error (.io ((w.sourceDirPath module version).join name) fault), d)
      | none, none => (.error (.io ((w.sourceDirPath module version).join name) .notText), d)
      | none, some text =>
        ((w.adaptedDeed module version name text).work w.setup.settings.outputRoot).run.run d := by
  unfold Adapter.adaptFile
  rw [run_bind, Work.readText, Work.at, run_adapt, run_ofDisk, h.underway.readText_join hfile]
  cases ((w.sourceDirPath module version).join name).fault? <;>
    cases String.fromUTF8? content <;> rfl

theorem walks_adapts (fresh : w.Fresh) (hmade : .makes version ∈ done)
    (hfile : w.ready.tree.find? (name :: w.sourceDir module version) =
      some (.file content)) :
    w.Walks module done [.adapts version name content]
      (w.setup.settings.adapter.adaptFile (w.fileContext module version name)
        ((w.sourceDirPath module version).join name)
        ((w.packagePath module version).join name)) () := by
  cases hfault : ((w.sourceDirPath module version).join name).fault? with
  | some fault =>
    refine .error (by rw [offence?, hfault]) fun hd => ?_
    rw [hd.run_adaptFile hfile, hfault]
  | none =>
    cases htext : String.fromUTF8? content with
    | none =>
      refine .error (by rw [offence?, hfault, htext]) fun hd => ?_
      rw [hd.run_adaptFile hfile, hfault, htext]
    | some text =>
      have hwrite : ∀ {d}, w.Mirrors module done d → _ := fun hd =>
        hd.exists_write fresh hmade hfile htext
      cases hcopy :
          ((w.packagePath module version).join name).fault? with
      | some fault =>
        have hoffence : w.offence? module (.adapts version name content) = some
            (.io ((w.packagePath module version).join name) fault) := by
          simp [offence?, hfault, htext, hcopy]
        refine .error hoffence fun hd => ?_
        have hwrite := hwrite hd
        rw [hcopy] at hwrite
        rw [hd.run_adaptFile hfile, hfault, htext]
        exact hwrite
      | none =>
        refine .ok (by simp [offence?, hfault, htext, hcopy]) fun hd => ?_
        have hwrite := hwrite hd
        rw [hcopy] at hwrite
        rw [hd.run_adaptFile hfile, hfault, htext]
        exact hwrite

theorem walks_rejects {α : Type} {a : α} : w.Walks module done [.rejects version name]
    (throw (.unknownEntry
      ((w.sourceDirPath module version).join name)) : Work α) a :=
  .error rfl fun _ => rfl

end Visits

section Loops
variable {w : Workplace} {module version : String} {done : List Visit} {summary : ModuleSummary}
  {entries : List (String × Entry)}

theorem countP_versionVisits
    (h : (w.versionVisits module version).findSome? (w.offence? module) = none) :
    (w.versionVisits module version).countP Visit.isFile =
      (w.ready.tree.children (version :: module :: w.source)).length := by
  have hfiles : ∀ visit ∈ (w.ready.tree.children (version :: module :: w.source)).map
      (versionVisit version), visit.isFile = true := by
    refine List.forall_mem_map.2 fun entry hentry => ?_
    have hnone : w.offence? module (versionVisit version entry) = none :=
      List.findSome?_eq_none_iff.1 h _ (List.mem_cons_of_mem _ (List.mem_cons_of_mem _
        (List.mem_map_of_mem hentry)))
    obtain ⟨name, found⟩ := entry
    cases found with
    | file content => rfl
    | directory => cases hnone
    | link target => cases hnone
  rw [versionVisits, List.countP_cons_of_neg Bool.false_ne_true,
    List.countP_cons_of_neg Bool.false_ne_true, List.countP_eq_length.2 hfiles, List.length_map]

theorem walks_adaptVersion (fresh : w.Fresh) (hmade : .makes none ∈ done)
    (hfound : w.ready.tree.find? (version :: module :: w.source) = some .directory) :
    w.Walks module done (w.versionVisits module version)
      (w.setup.settings.adapter.adaptVersion module version)
      ((w.versionVisits module version).countP Visit.isFile) := by
  have hscope : w.ready.tree.find? (w.sourceDir module (some version)) =
      some .directory := hfound
  have hloop : w.Walks module (done ++ [.makes (some version)] ++ [.lists (some version)])
      ((w.ready.tree.children (version :: module :: w.source)).map (versionVisit version))
      ((w.ready.tree.children (version :: module :: w.source)).forM
        (w.setup.settings.adapter.adaptVersionEntry module version
          (sourcePath w.setup.settings [module, version])
          (w.setup.settings.outputRoot.joins [module, version]))) () := by
    refine .forM fun entry hentry done' hdone' => ?_
    obtain ⟨name, found⟩ := entry
    cases found with
    | file content => exact walks_adapts fresh (hdone' _ (by simp)) (FileTree.mem_children.1 hentry)
    | directory => exact walks_rejects
    | link target => exact walks_rejects
  rw [adaptVersion_eq]
  refine Walks.value_congr ?_ fun hnone => (countP_versionVisits hnone).symm
  exact (walks_makes fresh hscope fun _ => hmade).bind ((walks_lists hscope).bind hloop.bind_pure)

def summaryOf (w : Workplace) (module : String) (summary : ModuleSummary)
    (entry : String × Entry) : ModuleSummary :=
  ⟨summary.files + (w.entryVisits module entry).countP Visit.isFile,
    summary.versions ++ directoryNames [entry]⟩

theorem foldl_summaryOf : entries.foldl (w.summaryOf module) summary =
    ⟨summary.files + (entries.flatMap (w.entryVisits module)).countP Visit.isFile,
      summary.versions ++ directoryNames entries⟩ := by
  induction entries generalizing summary with
  | nil => simp [directoryNames]
  | cons entry entries ih =>
    have hnames : directoryNames (entry :: entries) =
        directoryNames [entry] ++ directoryNames entries := by
      rw [directoryNames, directoryNames, directoryNames, ← List.map_append, ← List.filter_append,
        List.singleton_append]
    rw [List.foldl_cons, ih, List.flatMap_cons, List.countP_append, hnames, summaryOf]
    simp only [Nat.add_assoc, List.append_assoc]

theorem walks_adaptModuleEntry (fresh : w.Fresh) (hmade : .makes none ∈ done)
    {entry : String × Entry} (hentry : entry ∈ w.ready.tree.children (module :: w.source)) :
    w.Walks module done (w.entryVisits module entry)
      (w.setup.settings.adapter.adaptModuleEntry module (sourcePath w.setup.settings [module])
        (w.setup.settings.outputRoot.joins [module]) summary entry)
      (w.summaryOf module summary entry) := by
  obtain ⟨name, found⟩ := entry
  have hchild := FileTree.mem_children.1 hentry
  cases found with
  | file content =>
    have hfile : w.ready.tree.find? (name :: w.sourceDir module none) =
        some (.file content) := hchild
    have hsummary : w.summaryOf module summary (name, .file content) =
        { summary with files := summary.files + 1 } := by
      simp [summaryOf, entryVisits, Visit.isFile, directoryNames, Entry.isDirectory]
    rw [hsummary]
    exact (walks_adapts fresh hmade hfile).bind_pure
  | directory =>
    have hsummary : w.summaryOf module summary (name, .directory) =
        ⟨summary.files + (w.versionVisits module name).countP Visit.isFile,
          summary.versions ++ [name]⟩ := by
      simp [summaryOf, entryVisits, directoryNames, Entry.isDirectory]
    rw [hsummary]
    exact (walks_adaptVersion fresh hmade hchild).bind_pure
  | link target => exact walks_rejects

theorem walks_adaptModule (fresh : w.Fresh)
    (hfound : w.ready.tree.find? (module :: w.source) = some .directory) :
    w.Walks module [] (w.visits module) (w.setup.settings.adapter.adaptModule module)
      ⟨(w.visits module).countP Visit.isFile,
        directoryNames (w.ready.tree.children (module :: w.source))⟩ := by
  have hscope : w.ready.tree.find? (w.sourceDir module none) =
      some .directory := hfound
  have hloop : w.Walks module ([] ++ [.makes none] ++ [.lists none])
      ((w.ready.tree.children (module :: w.source)).flatMap (w.entryVisits module))
      ((w.ready.tree.children (module :: w.source)).foldlM
        (w.setup.settings.adapter.adaptModuleEntry module (sourcePath w.setup.settings [module])
          (w.setup.settings.outputRoot.joins [module])) {})
      ((w.ready.tree.children (module :: w.source)).foldl (w.summaryOf module) {}) :=
    .foldlM fun summary entry hentry done' hdone' =>
      walks_adaptModuleEntry fresh (hdone' _ (by simp)) hentry
  have hvalue : (w.ready.tree.children (module :: w.source)).foldl (w.summaryOf module) {} =
      ⟨(w.visits module).countP Visit.isFile,
        directoryNames (w.ready.tree.children (module :: w.source))⟩ := by
    rw [foldl_summaryOf]
    simp [visits, Visit.isFile]
  rw [hvalue] at hloop
  rw [adaptModule_eq]
  exact (walks_makes fresh hscope fun hnone => absurd rfl hnone).bind
    ((walks_lists hscope).bind hloop)

end Loops

section Module
variable {w : Workplace} {module : String}

theorem adaptModule_of_fault {fault : Fault} (fresh : w.Fresh)
    (hfound : w.ready.tree.find? (module :: w.source) = some .directory)
    (hfault : (w.setup.settings.outputRoot.join module).fault? = some fault) : ∃ after,
    (w.setup.settings.adapter.adaptModule module).run.run w.ready =
      (.error (.io (w.setup.settings.outputRoot.join module) fault), after) ∧
    ∀ loc, after.tree.find? loc = w.ready.tree.find? loc := by
  have hoffence : w.offence? module (.makes none) =
      some (.io (w.setup.settings.outputRoot.join module) fault) :=
    congrArg (Option.map _) hfault
  have hfirst : (w.visits module).findSome? (w.offence? module) =
      some (.io (w.setup.settings.outputRoot.join module) fault) := by
    rw [visits, List.findSome?_cons, hoffence]
  have hpassed : w.passed module (w.visits module) = [] := by simp [passed, visits, hoffence]
  have hready := w.mirrors_ready module
  have hwalk := walks_adaptModule fresh hfound
  have hresult := (hwalk.result hready).trans (outcome_error hfirst)
  have hmirrors := hwalk.mirrors hready
  rw [hpassed] at hmirrors
  rcases hrun : (w.setup.settings.adapter.adaptModule module).run.run w.ready with ⟨result, after⟩
  rw [hrun] at hresult hmirrors
  refine ⟨after, by rw [← hresult], fun loc => Option.ext fun entry => ?_⟩
  rw [hmirrors.find?_iff]
  simp

/-- Into an empty output root a module's directory is mirrored. Where no visit of the walk gives
offence, the files are counted and the versions come in the order of their names; otherwise the
first visit that does so is what the work fails with. All that is new in the end is what the visits
before it have put there. -/
theorem adaptModule_mirrors (fresh : w.Fresh)
    (hfound : w.ready.tree.find? (module :: w.source) = some .directory) :
    ∃ result after,
      (w.setup.settings.adapter.adaptModule module).run.run w.ready = (result, after) ∧
      result = w.outcome module (w.visits module) ⟨(w.visits module).countP Visit.isFile,
        directoryNames (w.ready.tree.children (module :: w.source))⟩ ∧
      (∀ dir, (w.ready.tree.children dir).Pairwise fun entry entry' => entry.1 < entry'.1) ∧
      ∀ loc entry, after.tree.find? loc = some entry ↔ w.ready.tree.find? loc = some entry ∨
        ∃ visit ∈ w.passed module (w.visits module), w.copy? module visit = some (loc, entry) := by
  have hwalk := walks_adaptModule fresh hfound
  have hready := w.mirrors_ready module
  exact ⟨_, _, Prod.mk.eta.symm, hwalk.result hready, fun _ => ascending_children,
    (hwalk.mirrors hready).find?_iff⟩

/-- The entry file of `web` and that of its version are mirrored. -/
theorem adaptModule_mirrors_web : webPlace.Fresh ∧
    webPlace.ready.tree.find? ("web" :: webPlace.source) = some .directory ∧
    ∃ after, (webPlace.setup.settings.adapter.adaptModule "web").run.run webPlace.ready =
      (.ok ⟨2, ["v1"]⟩, after) ∧
      after.tree.find? ["index.ts", "v1", "web", "packages"] = some (.file (
        "import * as pulumi from \"@pulumi/pulumi\";\n" ++
        "import * as utilities from \"@azure-native-split/core/utilities\";\n" ++
        "import * as types from \"./types\";\n" ++ "export * from \"./types/enums\";\n" ++
        "export type Pages = types.inputs.Page[];\n").toUTF8) := by
  have hfound : webPlace.ready.tree.find? ("web" :: webPlace.source) = some .directory := by
    decide +kernel
  obtain ⟨result, after, hrun, hresult, -, hfind⟩ := adaptModule_mirrors fresh_webPlace hfound
  have hok : webPlace.outcome "web" (webPlace.visits "web")
      ⟨(webPlace.visits "web").countP Visit.isFile,
        directoryNames (webPlace.ready.tree.children ("web" :: webPlace.source))⟩ =
      .ok (⟨2, ["v1"]⟩ : ModuleSummary) := by decide +kernel
  have hcopy : some (["index.ts", "v1", "web", "packages"], Entry.file (
        "import * as pulumi from \"@pulumi/pulumi\";\n" ++
        "import * as utilities from \"@azure-native-split/core/utilities\";\n" ++
        "import * as types from \"./types\";\n" ++ "export * from \"./types/enums\";\n" ++
        "export type Pages = types.inputs.Page[];\n").toUTF8) ∈
      (webPlace.passed "web" (webPlace.visits "web")).map (webPlace.copy? "web") := by
    decide +kernel
  exact ⟨fresh_webPlace, hfound, after, hrun.trans (by rw [hresult, hok]),
    (hfind _ _).2 (.inr (List.mem_map.1 hcopy))⟩

def lengthyDisk : Disk where
  home := []
  tree := (diskOf [(["index.ts", "web", "sdk"], "")]).tree.plant ["out"] .directory

/-- The path to the output root is as long as one can be, and so those of its entries are longer. -/
def lengthyPlace : Workplace where
  setup := setupOf { sourceRoot := ⟨"sdk"⟩, outputRoot := (Files.Path.mk "out").slashed 4092 }
  ready := lengthyDisk
  source := ["sdk"]
  output := ["out"]
  leadsSource := by
    have hentry : lengthyDisk.entry ⟨"sdk"⟩ = .ok (["sdk"], .directory) := by decide +kernel
    exact hentry
  leadsOutput := by
    have hentry : lengthyDisk.entry ⟨"out"⟩ = .ok (["out"], .directory) := by decide +kernel
    have hleads : (Files.Path.mk "out").Leads [lengthyDisk.tree] lengthyDisk.home ["out"] [] :=
      Path.leads_of_entry (List.forall_mem_singleton.2 hentry)
    have hfault := @Path.fault?_slashed_append ⟨"out"⟩ 4092 "" (by decide) (by decide) (by decide)
    rw [String.append_empty, if_neg (by decide)] at hfault
    exact (hleads.slashed (by decide)).entry_eq lengthyDisk.over_self hfault
  sourceApart := by decide
  outputApart := by decide
  noLink := by
    intro loc _ target hlink
    have hall := @entry_of_all lengthyDisk.tree (fun _ entry => !isLink entry) (by decide +kernel)
      loc _ hlink
    cases hall

/-- A text file is not mirrored where its path gets too long. -/
theorem adaptModule_lengthy : lengthyPlace.Fresh ∧
    lengthyPlace.ready.tree.find? ["web", "sdk"] = some .directory ∧
    lengthyPlace.ready.tree.children ["web", "sdk"] = [("index.ts", .file "".toUTF8)] ∧
    ∃ path after, (lengthyPlace.setup.settings.adapter.adaptModule "web").run.run
      lengthyPlace.ready = (.error (.io path .nameTooLong), after) ∧
      after.tree.find? ["index.ts", "web", "out"] = none := by
  have fresh : lengthyPlace.Fresh := fresh_of_all (by decide +kernel)
  have hfound : lengthyPlace.ready.tree.find? ["web", "sdk"] = some .directory := by decide +kernel
  refine ⟨fresh, hfound, by decide +kernel, ?_⟩
  have hroot : lengthyPlace.setup.settings.outputRoot = (Files.Path.mk "out").slashed 4092 := rfl
  have hjoin : ((Files.Path.mk "out").slashed 4092).join "web" = _ :=
    @Path.join_slashed ⟨"out"⟩ 4091 "web" (by decide)
  have hlong := @Path.fault?_slashed_append ⟨"out"⟩ 4092 "web" (by decide) (by decide) (by decide)
  have hfault : (lengthyPlace.setup.settings.outputRoot.join "web").fault? = some .nameTooLong := by
    rw [hroot, hjoin, hlong, if_pos (by decide)]
  obtain ⟨after, hrun, hsame⟩ := adaptModule_of_fault fresh hfound hfault
  exact ⟨_, after, hrun, (hsame _).trans (by decide +kernel)⟩

end Module

end Workplace

end Unbundle.Build
