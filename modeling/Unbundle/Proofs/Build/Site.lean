import Unbundle.Build.WorkUnit
import Unbundle.Proofs.Declaration.Names
import Unbundle.Proofs.Files.Writes

/-! The work on a module on two disks side by side. It reads the module's own directory in the
source and the module's enums, and writes below the module's own directory in the output. Where the
first are the same on both disks and the second can be written to, the work is in step. -/

namespace Unbundle.Build
open Std (ExtTreeMap)
open Unbundle.Files Unbundle.Declaration Unbundle.Types Unbundle.Implementation
open Unbundle.Files.FileTree (Along)

def sourcePath (settings : Settings) (names : List String) : Files.Path :=
  names.foldl Files.Path.join settings.sourceRoot

/-- What the units of a module may look at, by the names that lead there from the source root. -/
inductive Reads (module : String) : List String → Prop where
  | own {rest} (short : rest.length ≤ 2) : Reads module (module :: rest)
  | enums {rest} : Reads module (typesName :: enumsName :: module :: rest)

/-- The directories that the units of a module may list. -/
inductive Lists (module : String) : List String → Prop where
  | own {rest} (short : rest.length ≤ 1) : Lists module (module :: rest)
  | enums : Lists module [typesName, enumsName, module]

/-- What the units of a module need of two disks to be in step on them. -/
structure Site (R : Disk → Disk → Prop) (settings : Settings) (grounds : List FileTree)
    (home output : Location) (module : String) : Prop where
  name : IsName module
  extension : '/' ∉ settings.extension.toList
  grounded : Grounded R grounds home
  leads : settings.outputRoot.Leads grounds home output []
  own : Writable R fun loc => (module :: output) <:+ loc
  entry : ∀ {names d e}, Reads module names → (∀ name ∈ names, IsName name) → R d e →
    d.entry (sourcePath settings names) = e.entry (sourcePath settings names)
  list : ∀ {names d e}, Lists module names → (∀ name ∈ names, IsName name) → R d e →
    d.list (sourcePath settings names) = e.list (sourcePath settings names)

theorem isName_fileName {stem extension : String} (hstem : IsName stem)
    (h : '/' ∉ extension.toList) : IsName (fileName stem extension) := by
  have hlength : stem.toList ≠ [] := by simpa using hstem.nonempty
  obtain ⟨c, s, hs⟩ := List.exists_cons_of_ne_nil hlength
  have htext : (fileName stem extension).toList = c :: (s ++ '.' :: extension.toList) := by
    simp [fileName, hs]
  refine ⟨?_, ?_, ?_, ?_⟩
  · intro hempty
    simp [hempty] at htext
  · intro hhere
    rw [hhere] at htext
    simp at htext
  · intro hup
    rw [hup] at htext
    obtain ⟨rfl, hrest⟩ : '.' = c ∧ ['.'] = s ++ '.' :: extension.toList := by simpa using htext
    have hnil : s = [] := by
      have := congrArg List.length hrest
      simp only [List.length_append, List.length_cons, List.length_nil] at this
      exact List.eq_nil_of_length_eq_zero (by omega)
    subst hnil
    exact hstem.notHere (String.toList_injective (by simpa using hs))
  · rw [htext]
    have hslash := hstem.noSlash
    rw [hs] at hslash
    simp only [List.mem_cons, List.mem_append, not_or] at hslash ⊢
    exact ⟨hslash.1, hslash.2, by decide, h⟩

theorem along_suffix {base dir : Location} (names : List String) (h : base <:+ dir) :
    Along (fun loc => base <:+ loc) dir names := by
  induction names generalizing dir with
  | nil => trivial
  | cons name names ih =>
    have hname : base <:+ name :: dir := h.trans (List.suffix_cons name dir)
    exact ⟨hname, ih hname⟩

theorem along_own {name : String} {dir : Location} (names : List String) :
    Along (fun loc => (name :: dir) <:+ loc) dir (name :: names) :=
  ⟨List.suffix_refl _, along_suffix names (List.suffix_refl _)⟩

section Work
variable {R : Disk → Disk → Prop} {settings : Settings} {grounds : List FileTree}
  {home output : Location} {module : String} {names rest : List String} {path : Files.Path}

theorem sourcePath_concat (name : String) :
    sourcePath settings (names ++ [name]) = (sourcePath settings names).join name := by
  simp [sourcePath]

theorem InStep.readBytes (h : ∀ d e, R d e → d.entry path = e.entry path) :
    InStep R (DiskM.ofDisk (·.readBytes path)) fun _ _ => True := by
  refine .ofDisk (fun d e hR => ?_) fun _ _ _ _ _ => trivial
  simp only [Disk.readBytes, h d e hR]

theorem InStep.readText (h : ∀ d e, R d e → d.entry path = e.entry path) :
    InStep R (DiskM.ofDisk (·.readText path)) fun _ _ => True := by
  refine .ofDisk (fun d e hR => ?_) fun _ _ _ _ _ => trivial
  simp only [Disk.readText, Disk.readBytes, h d e hR]

theorem run_readText? {disk : Disk} : (Work.readText? path).run.run disk =
    (match disk.readText path with
      | .ok text => .ok (some text)
      | .error .notFound => .ok none
      | .error fault => .error (.io path fault), disk) := by
  unfold Work.readText? Work.at
  rw [run_adapt, run_bind, run_tryCatch, run_bind, ← bind_pure_comp,
    run_bind, run_ofDisk]
  cases disk.readText path with
  | error fault => cases fault <;> rfl
  | ok text => rfl

theorem run_listIfPresent {disk : Disk} : (Work.listIfPresent path).run.run disk =
    (match disk.list path with
      | .ok entries => .ok entries
      | .error .notFound => .ok []
      | .error fault => .error (.io path fault), disk) := by
  unfold Work.listIfPresent Work.at
  rw [run_adapt, run_bind, run_tryCatch, run_bind, run_ofDisk]
  cases disk.list path with
  | error fault => cases fault <;> rfl
  | ok entries => rfl

theorem InStep.readText? (h : ∀ d e, R d e → d.entry path = e.entry path) :
    InStep R (Work.readText? path) fun _ _ => True := by
  intro d e hR
  have hsame : d.readText path = e.readText path := by
    simp only [Disk.readText, Disk.readBytes, h d e hR]
  rw [run_readText?, run_readText?, hsame]
  exact ⟨rfl, hR, fun _ _ => trivial⟩

def Listed (entries : List (String × Entry)) : Prop := ∀ entry ∈ entries, IsName entry.1

theorem InStep.list (h : ∀ d e, R d e → d.list path = e.list path) :
    InStep R (Work.list path) fun entries _ => Listed entries :=
  InStep.at (.ofDisk h fun _ _ _ _ hlist _ hmem => Disk.isName_of_mem_list hlist hmem)

theorem InStep.listIfPresent (h : ∀ d e, R d e → d.list path = e.list path) :
    InStep R (Work.listIfPresent path) fun entries _ => Listed entries := by
  intro d e hR
  rw [run_listIfPresent, run_listIfPresent, ← h d e hR]
  refine ⟨rfl, hR, fun entries hentries => ?_⟩
  cases hlist : d.list path with
  | ok found =>
    rw [hlist] at hentries
    cases hentries
    exact fun _ hmem => Disk.isName_of_mem_list hlist hmem
  | error fault =>
    rw [hlist] at hentries
    cases fault with
    | notFound =>
      cases hentries
      exact nofun
    | _ => cases hentries

theorem isName_of_mem_directoryNames {entries : List (String × Entry)} (h : Listed entries)
    {name : String} (hname : name ∈ directoryNames entries) : IsName name := by
  obtain ⟨entry, hmem, rfl⟩ := List.mem_map.1 hname
  exact h entry (List.mem_filter.1 hmem).1

end Work

section Site
variable {R : Disk → Disk → Prop} {settings : Settings} {grounds : List FileTree}
  {home output : Location} {module name : String} {rest : List String} {path : Files.Path}

theorem Site.leads_module (site : Site R settings grounds home output module) :
    (settings.packages.module module).Leads grounds home output [module] :=
  site.leads.join site.name

theorem Site.leads_version (site : Site R settings grounds home output module)
    (hname : IsName name) :
    (settings.packages.version module name).Leads grounds home output [module, name] :=
  site.leads_module.join hname

theorem Site.makeDirectories (site : Site R settings grounds home output module)
    (h : path.Leads grounds home output (module :: rest)) :
    InStep R (Work.makeDirectories path) fun _ _ => True :=
  InStep.at ((InStep.makeDirectories site.own site.grounded h (along_own rest) (by simp)).imp
    fun _ _ _ => trivial)

theorem Site.writeText (site : Site R settings grounds home output module)
    (h : path.Leads grounds home output (module :: rest)) (hname : IsName name) (text : String) :
    InStep R (Work.writeText (path.join name) text) fun _ _ => True :=
  InStep.at (InStep.writeText site.own site.grounded (h.join hname) (along_own (rest ++ [name]))
    text)

theorem Site.isName_fileName (site : Site R settings grounds home output module) {stem : String}
    (h : IsName stem) : IsName (fileName stem settings.extension) :=
  Build.isName_fileName h site.extension

/-! The implementation files of a module. -/

theorem Site.adaptFile (site : Site R settings grounds home output module) {names : List String}
    {context : Context} {source : Files.Path}
    (hsource : source.join name = sourcePath settings names) (hreads : Reads module names)
    (hnames : ∀ name ∈ names, IsName name)
    (h : path.Leads grounds home output (module :: rest)) (hname : IsName name) :
    InStep R (settings.adapter.adaptFile context (source.join name) (path.join name))
      fun _ _ => True := by
  refine .bind (InStep.at (InStep.readText fun d e hR => ?_)) fun _ _ _ =>
    site.writeText h hname _
  rw [hsource]
  exact site.entry hreads hnames hR

theorem Site.adaptVersion (site : Site R settings grounds home output module)
    (hname : IsName name) :
    InStep R (settings.adapter.adaptVersion module name) fun _ _ => True := by
  have hnames : ∀ x ∈ [module, name], IsName x := by
    simpa using ⟨site.name, hname⟩
  have hleads := site.leads_version hname
  have hlist : InStep R (Work.list (sourcePath settings [module, name])) fun entries _ =>
      Listed entries :=
    InStep.list fun d e hR => site.list (.own (Nat.le_refl 1)) hnames hR
  unfold Adapter.adaptVersion
  refine .bind (site.makeDirectories hleads) fun _ _ _ => ?_
  refine .bind hlist fun entries _ hentries => ?_
  refine .bind (.forM fun entry hentry => ?_) fun _ _ _ => .pure fun _ => trivial
  obtain ⟨file, found⟩ := entry
  have hfile : IsName file := hentries _ hentry
  cases found with
  | file content =>
    have hsource : ((settings.adapter.sdk.module module).join name).join file =
        sourcePath settings [module, name, file] := rfl
    exact site.adaptFile hsource (.own (Nat.le_refl 2))
      (by simpa using ⟨site.name, hname, hfile⟩) hleads hfile
  | directory => exact .throw
  | link target => exact .throw

theorem Site.adaptModule (site : Site R settings grounds home output module) :
    InStep R (settings.adapter.adaptModule module) fun _ _ => True := by
  have hmodule : ∀ x ∈ [module], IsName x := by simpa using site.name
  have hlist : InStep R (Work.list (sourcePath settings [module])) fun entries _ =>
      Listed entries :=
    InStep.list fun d e hR => site.list (.own (Nat.zero_le 1)) hmodule hR
  unfold Adapter.adaptModule
  refine .bind (site.makeDirectories site.leads_module) fun _ _ _ => ?_
  refine .bind hlist fun entries _ hentries => ?_
  refine .foldlM (I := fun _ => True) trivial fun summary entry hentry _ => ?_
  obtain ⟨name, found⟩ := entry
  have hname : IsName name := hentries _ hentry
  cases found with
  | file content =>
    have hsource : (settings.adapter.sdk.module module).join name =
        sourcePath settings [module, name] := rfl
    exact .bind (site.adaptFile hsource (.own (Nat.le_succ 1)) (by simpa using ⟨site.name, hname⟩)
      site.leads_module hname) fun _ _ _ => .pure fun _ => trivial
  | directory => exact .bind (site.adaptVersion hname) fun _ _ _ => .pure fun _ => trivial
  | link target => exact .throw

end Site

end Unbundle.Build
