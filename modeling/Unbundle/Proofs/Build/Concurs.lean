import Unbundle.Proofs.Build.PackageScripts
import Unbundle.Proofs.Build.TypesScripts

/-! The units of a build, each with the deeds that it can be made of. On two disks where a unit
finds the same wherever it may do something, it comes to the same outcome and leaves the same marks.
-/

namespace Unbundle.Build
open Unbundle.Files Unbundle.Types

namespace Workplace

/-- Two disks on which work of some kind finds the same. -/
structure Twins (w : Workplace) (kind : Deed → Prop) (d e : Disk) : Prop where
  underway : w.Underway d
  underway' : w.Underway e
  reads : w.Unlinked ∨ d = e
  meets : (Footprint.ofKind kind).Meets w.output d.tree e.tree

/-- Work that is put together of works by scripts. -/
inductive Serial (w : Workplace) (kind : Deed → Prop) : {α : Type} → StateM Disk α → Prop where
  | pure {α : Type} {a : α} : Serial w kind (pure a)
  | script {α : Type} {work : Work α} {Q : α → List Deed → Prop}
      (scripted : w.Scripted [] kind work Q) : Serial w kind work.run
  | bind {α β : Type} {work : StateM Disk α} {next : α → StateM Disk β}
      (first : Serial w kind work) (rest : ∀ a, Serial w kind (next a)) :
      Serial w kind (work >>= next)

/-- Work that comes to one result where it finds the same, and leaves the marks of its kind. -/
def Concurs {α : Type} (w : Workplace) (kind : Deed → Prop) (work : StateM Disk α) : Prop :=
  ∀ d e, w.Twins kind d e → (work.run d).1 = (work.run e).1 ∧
    (Footprint.ofKind kind).Marks w.output d e (work.run d).2 (work.run e).2

section Rules
variable {α β : Type} {w : Workplace} {kind wide : Deed → Prop} {d e d' e' : Disk}
  {work : StateM Disk α} {next : α → StateM Disk β}

theorem twins_self (h : w.Underway d) : w.Twins kind d d :=
  ⟨h, h, .inr rfl, .refl _ _ _⟩

theorem Concurs.marks (h : w.Concurs kind work) (hd : w.Underway d) :
    (Footprint.ofKind kind).Marks w.output d d (work.run d).2 (work.run d).2 :=
  (h d d (twins_self hd)).2

theorem Concurs.underway (h : w.Concurs kind work) (hd : w.Underway d) :
    w.Underway (work.run d).2 := hd.marks (h.marks hd)

theorem Concurs.twins (h : w.Concurs kind work) (htwins : w.Twins kind d e) :
    w.Twins kind (work.run d).2 (work.run e).2 where
  underway := h.underway htwins.underway
  underway' := h.underway htwins.underway'
  reads := htwins.reads.imp_right fun heq => congrArg (fun disk => (work.run disk).2) heq
  meets := htwins.meets.marks (h d e htwins).2

theorem Concurs.pure {a : α} : w.Concurs kind (pure a) := fun _ _ _ => ⟨rfl, .refl _ _ _ _⟩

theorem Concurs.bind (h : w.Concurs kind work) (hnext : ∀ a, w.Concurs kind (next a)) :
    w.Concurs kind (work >>= next) := by
  intro d e htwins
  obtain ⟨hresult, hmarks⟩ := h d e htwins
  rw [runState_bind, runState_bind, ← hresult]
  obtain ⟨hend, hmore⟩ := hnext _ _ _ (h.twins htwins)
  exact ⟨hend, hmarks.trans hmore⟩

theorem Scripted.concurs {α : Type} {work : Work α} {Q : α → List Deed → Prop}
    (h : w.Scripted [] kind work Q) : w.Concurs kind work.run := by
  intro d e htwins
  have hsteady : w.Steady [] fun x => x = d ∨ x = e := by
    refine ⟨?_, fun _ => nofun, htwins.reads.imp_right ?_⟩
    · rintro x (rfl | rfl)
      · exact htwins.underway
      · exact htwins.underway'
    · rintro rfl x y (rfl | rfl) (rfl | rfl) <;> rfl
  obtain ⟨script, hplays, -⟩ := h _ hsteady
  have hwithin : ∀ deed ∈ script.deeds, deed.Named ∧ deed.Within (.ofKind kind) :=
    fun deed hdeed => ⟨(hplays.deeds deed hdeed).1, Deed.within_ofKind (hplays.deeds deed hdeed).2⟩
  obtain ⟨hresult, hmarks⟩ := perform_congr htwins.underway.standing htwins.underway'.standing
    hwithin hplays.founded (fun _ => nofun) (fun _ => nofun) htwins.meets
  have hd := hplays.run (.inl rfl)
  have he := hplays.run (.inr rfl)
  rw [Script.run_work] at hd he
  rw [hd, he]
  revert hresult hmarks
  rcases (Files.perform w.setup.settings.outputRoot script.deeds).run.run d with ⟨result, d'⟩
  rcases (Files.perform w.setup.settings.outputRoot script.deeds).run.run e with ⟨result', e'⟩
  rintro (rfl : result = result') hmarks
  cases result with
  | error failure => exact ⟨rfl, hmarks⟩
  | ok => exact ⟨rfl, hmarks⟩

theorem Serial.concurs (h : w.Serial kind work) : w.Concurs kind work := by
  induction h with
  | pure => exact .pure
  | script scripted => exact scripted.concurs
  | bind _ _ ih ihnext => exact ih.bind ihnext

theorem Serial.mono (h : w.Serial kind work) (hkind : ∀ deed, kind deed → wide deed) :
    w.Serial wide work := by
  induction h with
  | pure => exact .pure
  | script scripted => exact .script (scripted.kind_imp fun deed _ hdeed => hkind deed hdeed)
  | bind _ _ ih ihnext => exact ih.bind ihnext

theorem Serial.foldlM {list : List β} {body : α → β → StateM Disk α} {a : α}
    (h : ∀ a, ∀ x ∈ list, w.Serial kind (body a x)) : w.Serial kind (list.foldlM body a) := by
  induction list generalizing a with
  | nil => exact .pure
  | cons x list ih =>
    refine .bind (h a x List.mem_cons_self) fun b => ih fun a y hy => ?_
    exact h a y (List.mem_cons_of_mem _ hy)

theorem Scripted.performed {α : Type} {work : Work α} {Q : α → List Deed → Prop} {a : α}
    (h : w.Scripted [] kind work Q) (hd : w.Underway d) (hok : work.run.run d = (.ok a, d')) :
    ∃ deeds, (∀ deed ∈ deeds, deed.Named ∧ kind deed) ∧ Founded [] deeds ∧
      (Files.perform w.setup.settings.outputRoot deeds).run.run d = (.ok (), d') ∧ Q a deeds := by
  have hsteady : w.Steady [] (· = d) :=
    ⟨fun heq => heq ▸ hd, fun _ => nofun, .inr fun hd he => hd.trans he.symm⟩
  obtain ⟨script, hplays, hpost⟩ := h _ hsteady
  have hrun := hplays.run rfl
  rw [hok, Script.run_work] at hrun
  refine ⟨script.deeds, hplays.deeds, hplays.founded, ?_⟩
  revert hrun
  rcases (Files.perform w.setup.settings.outputRoot script.deeds).run.run d with ⟨result, d₁⟩
  intro hrun
  cases result with
  | error failure => cases hrun
  | ok =>
    obtain ⟨hresult, rfl⟩ := Prod.mk.inj hrun
    exact ⟨rfl, hpost a hresult.symm⟩

end Rules

end Workplace

/-- The names that lead to the directory of a scope. -/
def scopeDir (module : String) : Option String → List String
  | none => [module]
  | some version => [module, version]

def Setup.writeScopeTypes (setup : Setup) (streams : Streams) (module : String) :
    Option String → Work TypesSummary
  | none => setup.writeModuleTypes streams module
  | some version => setup.writeVersionTypes streams module version

/-- The scopes of a module that have types. -/
def Streams.scopesOf (streams : Streams) (module : String) : List (Option String) :=
  none :: (streams.versionsOf module).map some

theorem Setup.runTypes_eq {setup : Setup} {streams : Streams} {module : String}
    (hissues : (streams.issuesOf module).isEmpty = true) :
    setup.runTypes streams module = (streams.scopesOf module).foldlM
      (fun outcome version => Setup.countTypes outcome
        (setup.writeScopeTypes streams module version)) { unit := .types module } := by
  have hversions : ∀ (versions : List String) (outcome : Outcome),
      (versions.map some).foldlM (fun outcome version => Setup.countTypes outcome
        (setup.writeScopeTypes streams module version)) outcome =
      versions.foldlM (fun outcome version => Setup.countTypes outcome
        (setup.writeVersionTypes streams module version)) outcome := by
    intro versions outcome
    rw [List.foldlM_map]
    rfl
  unfold Setup.runTypes Streams.scopesOf
  simp only [hissues, if_true, List.foldlM_cons]
  exact congrArg _ (funext fun outcome => (hversions _ outcome).symm)

namespace Workplace

/-- The deeds that the types of a module can be made of. -/
def IsTypes (w : Workplace) (streams : Streams) (module : String) (deed : Deed) : Prop :=
  ∃ version ∈ streams.scopesOf module, ScopeTypes.IsDeed w.setup.settings.outputRoot
    (scopeDir module version) w.setup.settings.extension deed

def OfScope (w : Workplace) (streams : Streams) (module : String) :
    Option String → ScopeTypes → Prop
  | none => w.OfModule streams module
  | some version => w.OfVersion streams module version

def Deeds (w : Workplace) (types : Except Failure TypesPlan) : WorkUnit → Deed → Prop
  | .core => w.IsCore
  | .implementation module => w.IsAdapted module
  | .types module => fun deed => ∃ plan, types = .ok plan ∧ w.IsTypes plan.streams module deed

section Units
variable {w : Workplace} {streams : Streams} {module : String} {version : Option String}
  {kind : Deed → Prop} {outcome : Outcome} {types : Except Failure TypesPlan} {unit : WorkUnit}

theorem isName_of_mem_scopeDir (hstreams : streams.Named) (hmodule : IsName module)
    (hversion : version ∈ streams.scopesOf module) :
    ∀ name ∈ scopeDir module version, IsName name := by
  cases version with
  | none => exact List.forall_mem_singleton.2 hmodule
  | some version =>
    have hmem : version ∈ streams.versionsOf module := by simpa [Streams.scopesOf] using hversion
    exact List.forall_mem_cons.2 ⟨hmodule,
      List.forall_mem_singleton.2 (hstreams.isName_of_mem_versionsOf hmem)⟩

theorem Scripted.writeScopeTypes (hextension : '/' ∉ w.setup.settings.extension.toList)
    (hstreams : streams.Named) (hmodule : IsName module)
    (hversion : version ∈ streams.scopesOf module) :
    w.Scripted [] (ScopeTypes.IsDeed w.setup.settings.outputRoot (scopeDir module version)
        w.setup.settings.extension) (w.setup.writeScopeTypes streams module version)
      fun _ deeds => ∃ types, w.OfScope streams module version types ∧
        deeds = types.deeds w.setup.settings.outputRoot (scopeDir module version)
          w.setup.settings.extension := by
  have hnames := isName_of_mem_scopeDir hstreams hmodule hversion
  cases version with
  | none => exact .writeModuleTypes hmodule hextension
  | some version => exact .writeVersionTypes hmodule (hnames version (by simp [scopeDir])) hextension

theorem Serial.countTypes {work : Work TypesSummary} (h : w.Serial kind work.run) :
    w.Serial kind (Setup.countTypes outcome work) := by
  refine .bind h fun result => ?_
  cases result with
  | ok summary => exact .pure
  | error failure => exact .pure

theorem Serial.makePackage {package : Package} {work : Work Unit} (h : w.Serial kind work.run) :
    w.Serial kind (w.setup.makePackage unit package work) := by
  refine .bind h fun result => ?_
  cases result with
  | error failure => exact .pure
  | ok =>
    simp only
    split
    · exact .pure
    · exact .pure

theorem Serial.runTypes (hextension : '/' ∉ w.setup.settings.extension.toList)
    (hstreams : streams.Named) (hmodule : IsName module) :
    w.Serial (w.IsTypes streams module) (w.setup.runTypes streams module) := by
  by_cases hissues : (streams.issuesOf module).isEmpty = true
  · rw [Setup.runTypes_eq hissues]
    refine .foldlM fun outcome version hversion => .countTypes ?_
    have hscope := Serial.script (Scripted.writeScopeTypes hextension hstreams hmodule hversion)
    exact hscope.mono fun deed hdeed => ⟨version, hversion, hdeed⟩
  · unfold Setup.runTypes
    simp only [hissues, Bool.false_eq_true, if_false]
    exact .pure

/-- A module of the build: a directory of the source root that is not ignored. -/
def Discovered (w : Workplace) (module : String) : Prop :=
  w.ready.tree.find? (module :: w.source) = some .directory ∧
    module ∉ w.setup.settings.ignoredDirs

/-- What a unit can be of: a module that is there, or a name that can be joined to a path. -/
def Suits (w : Workplace) : WorkUnit → Prop
  | .core => True
  | .implementation module => w.Discovered module
  | .types module => IsName module

theorem Serial.runImplementation (hmodule : w.Discovered module) :
    w.Serial (w.IsAdapted module) (w.setup.runImplementation module) := by
  have hname : IsName module :=
    FileTree.isName_of_mem_children (FileTree.mem_children.2 hmodule.1)
  have hadapt : w.Scripted [] (w.IsAdapted module)
      (discard (w.setup.settings.adapter.adaptModule module)) fun _ _ => True :=
    (Scripted.adaptModule hname hmodule.1).map fun _ _ _ => trivial
  exact .makePackage (.script hadapt)

theorem Serial.runUnit (hextension : '/' ∉ w.setup.settings.extension.toList)
    (htypes : TypesNamed types) (hsuits : w.Suits unit) :
    w.Serial (w.Deeds types unit) (w.setup.runUnit types unit) := by
  cases unit with
  | core =>
    have hcore : w.Scripted [] w.IsCore (discard (writeCore w.setup.settings.sdk
        w.setup.settings.packages)) fun _ _ => True :=
      (Scripted.writeCore hextension).map fun _ _ h => h
    exact .makePackage (.script hcore)
  | implementation module => exact .runImplementation hsuits
  | types module =>
    cases types with
    | error failure => exact .pure
    | ok plan =>
      exact (Serial.runTypes hextension (htypes plan rfl) hsuits).mono fun deed hdeed =>
        ⟨plan, rfl, hdeed⟩

theorem Concurs.runUnit (hextension : '/' ∉ w.setup.settings.extension.toList)
    (htypes : TypesNamed types) (hsuits : w.Suits unit) :
    w.Concurs (w.Deeds types unit) (w.setup.runUnit types unit) :=
  (Serial.runUnit hextension htypes hsuits).concurs

end Units

end Workplace

end Unbundle.Build
