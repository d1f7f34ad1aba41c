import Unbundle.Proofs.Build.Delivered
import Unbundle.Proofs.Files.Barred

/-! An extension with a slash. The files that are named by it would have to lie in directories with
a dot in their name, and in an output root that was empty nobody has made one: the types of every
scope fail, and so does the core package, and all that they do is to make directories. -/

namespace Unbundle.Build
open Std (ExtTreeMap)
open Unbundle.Files Unbundle.Types Unbundle.Declaration

/-- Deeds that make directories, or write files named by an extension. -/
inductive IsBarred (extension : String) : Deed → Prop where
  | make {names} (named : (Deed.make names).Named)
    (noDot : ∀ name ∈ names.tail, '.' ∉ name.toList) : IsBarred extension (.make names)
  | write {blame dir stem content} (nonempty : dir ≠ []) (named : ∀ name ∈ dir, IsName name)
    (isName : IsName stem) :
    IsBarred extension (.write blame dir (fileName stem extension) content)

section Names
variable {stem extension : String}

theorem exists_first_fileName (hstem : IsName stem) (hextension : '/' ∈ extension.toList) :
    ∃ first more, IsName first ∧ '.' ∈ first.toList ∧
      (fileName stem extension).toList = first.toList ++ '/' :: more := by
  obtain ⟨front, more, hsplit, hfront⟩ := List.eq_append_cons_of_mem hextension
  have hne : stem.toList ≠ [] := by simpa using hstem.nonempty
  have hhere : stem.toList ≠ ['.'] := fun heq => hstem.notHere (String.toList_inj.1 heq)
  have htext : ∀ {text : String}, String.ofList (stem.toList ++ '.' :: front) = text →
      stem.toList ++ '.' :: front = text.toList := fun heq => heq ▸ String.toList_ofList.symm
  refine ⟨String.ofList (stem.toList ++ '.' :: front), more, ⟨fun heq => ?_, fun heq => ?_,
    fun heq => ?_, ?_⟩, by simp, by simp [fileName, hsplit]⟩
  · exact List.append_ne_nil_of_left_ne_nil hne _ (htext heq)
  · rcases List.append_eq_singleton_iff.1 (htext heq) with ⟨hnil, -⟩ | ⟨-, hnil⟩
    · exact hne hnil
    · cases hnil
  · -- a stem before `.` alone would have to be `.`
    obtain ⟨c, s, hs⟩ := List.exists_cons_of_ne_nil hne
    have hcons := htext heq
    rw [hs] at hcons hhere
    obtain ⟨rfl, hrest⟩ := List.cons.inj hcons
    rcases List.append_eq_singleton_iff.1 hrest with ⟨rfl, -⟩ | ⟨-, hnil⟩
    · exact hhere rfl
    · cases hnil
  · simpa using ⟨hstem.noSlash, hfront⟩

end Names

namespace Workplace

/-- One disk, on which no file that is named by the extension can be written. -/
structure Barred (w : Workplace) (d e : Disk) : Prop where
  eq : d = e
  underway : w.Underway d
  noDot : Undotted w.output d.tree

section Barred
variable {w : Workplace} {d e : Disk} {deed : Deed} {deeds : List Deed} {made : List (List String)}
  {stem : String} {dir : List String} {types : ScopeTypes} {scope : List String}

theorem Fresh.barred (fresh : w.Fresh) : w.Barred w.ready w.ready where
  eq := rfl
  underway := w.underway_ready
  noDot := by
    intro above name _ _ hfind
    have hbeneath : Beneath w.output (name :: (above ++ w.output)) := by
      refine ⟨⟨name :: above, rfl⟩, fun heq => ?_⟩
      have hlength := congrArg List.length heq
      simp at hlength
      omega
    rw [fresh hbeneath] at hfind
    cases hfind

/-- A file named by an extension with a slash cannot be written anywhere. -/
theorem Barred.exists_target_error (h : w.Barred d d)
    (hextension : '/' ∈ w.setup.settings.extension.toList) (hdir : ∀ name ∈ dir, IsName name)
    (hne : dir ≠ []) (hstem : IsName stem)
    (hfound : d.tree.find? (dir.reverse ++ w.output) = some .directory) : ∃ fault,
      d.target ((w.setup.settings.outputRoot.joins dir).join
        (fileName stem w.setup.settings.extension)) = .error fault := by
  obtain ⟨first, more, hfirst, hdot, hname⟩ := exists_first_fileName hstem hextension
  have hleads := h.underway.standing.leads_directory hdir hfound
  have hlink : d.tree.NoLink (first :: (dir.reverse ++ w.output)) :=
    h.underway.standing.noLink ((List.suffix_append _ _).trans (List.suffix_cons _ _))
  exact hleads.exists_target_error hfirst hname
    (hlink.free (h.noDot (by simpa using hne) hdot))

theorem Barred.run_deed (h : w.Barred d d)
    (hextension : '/' ∈ w.setup.settings.extension.toList)
    (hdeed : IsBarred w.setup.settings.extension deed) (hfounded : deed.FoundedOn made)
    (hmade : d.tree.Has w.output made) : ∀ {result d'},
      (deed.work w.setup.settings.outputRoot).run.run d = (result, d') →
      w.Barred d' d' ∧ (result = .ok () → d'.tree.Has w.output (deed.made ++ made)) := by
  intro result d' hrun
  cases hdeed with
  | @make names named noDot =>
    have hwithin : (Deed.make names).Within undotted := by
      rintro first hne ⟨rest, rfl⟩ name hname
      refine noDot name ?_
      rw [List.tail_append_of_ne_nil hne]
      exact List.mem_append_left _ hname
    have hmarks := (Deed.make_congr h.underway.standing h.underway.standing named hwithin
      (.refl _ _ _)).2
    have hnew := Deed.has_made h.underway.standing named
    rw [hrun] at hmarks hnew
    exact ⟨⟨rfl, h.underway.marks hmarks, hmarks.undotted h.noDot⟩,
      fun hok => (hmade.keeps hmarks.keeps).append (hnew hok)⟩
  | @write blame dir stem content nonempty named isName =>
    obtain ⟨fault, htarget⟩ := h.exists_target_error hextension named nonempty isName
      (hmade dir hfounded)
    rw [Deed.run_write, DiskM.run_writeBytes_of_target htarget] at hrun
    cases hrun
    exact ⟨h, nofun⟩

theorem Barred.perform (h : w.Barred d d)
    (hextension : '/' ∈ w.setup.settings.extension.toList)
    (hdeeds : ∀ deed ∈ deeds, IsBarred w.setup.settings.extension deed)
    (hfounded : Founded made deeds) (hmade : d.tree.Has w.output made) :
    w.Barred ((Files.perform w.setup.settings.outputRoot deeds).run.run d).2
      ((Files.perform w.setup.settings.outputRoot deeds).run.run d).2 := by
  induction deeds generalizing made d with
  | nil => exact h
  | cons deed deeds ih =>
    obtain ⟨hdeed, hrest⟩ := List.forall_mem_cons.1 hdeeds
    rw [run_perform_cons]
    rcases hfirst : (deed.work w.setup.settings.outputRoot).run.run d with ⟨result, d'⟩
    obtain ⟨hbarred, hnew⟩ := h.run_deed hextension hdeed hfounded.1 hmade hfirst
    cases result with
    | error failure => exact hbarred
    | ok => exact ih hbarred hrest hfounded.2 (hnew rfl)

theorem InStep.writeTypes_barred (hextension : '/' ∈ w.setup.settings.extension.toList)
    (hscope : ∀ name ∈ scope, IsName name) (hne : scope ≠ [])
    (hnoDot : ∀ name ∈ scope.tail, '.' ∉ name.toList) (htexts : Keyed types.versionEnums) :
    InStep w.Barred (types.write (w.setup.settings.outputRoot.joins scope)
      w.setup.settings.extension) fun _ _ => True := by
  have htypes : ∀ name ∈ scope ++ [typesName], IsName name :=
    List.forall_mem_append.2 ⟨hscope, List.forall_mem_singleton.2 isName_typesName⟩
  have henums : ∀ name ∈ scope ++ [typesName] ++ [enumsName], IsName name :=
    List.forall_mem_append.2 ⟨htypes, List.forall_mem_singleton.2 isName_enumsName⟩
  have hbarred : ∀ deed ∈ types.deeds w.setup.settings.outputRoot scope
      w.setup.settings.extension, IsBarred w.setup.settings.extension deed := by
    intro deed hdeed
    cases ScopeTypes.isDeed_of_mem_deeds htexts hdeed with
    | directory =>
      refine .make ⟨by simp, htypes⟩ ?_
      rw [List.tail_append_of_ne_nil hne]
      exact List.forall_mem_append.2 ⟨hnoDot, by decide⟩
    | enums =>
      refine .make ⟨by simp, henums⟩ ?_
      rw [List.append_assoc, List.tail_append_of_ne_nil hne]
      exact List.forall_mem_append.2 ⟨hnoDot, by decide⟩
    | file hname => exact .write (by simp) htypes hname
    | enumsFile hname => exact .write (by simp) henums hname
  have hfounded : Founded [] (types.deeds w.setup.settings.outputRoot scope
      w.setup.settings.extension) := ScopeTypes.founded_deeds
  rw [ScopeTypes.write_eq]
  refine .bind (Q := fun _ _ => True) ?_ fun _ _ _ => .pure fun _ => trivial
  rintro d e ⟨rfl, hunderway, hnoDot⟩
  exact ⟨rfl, Barred.perform ⟨rfl, hunderway, hnoDot⟩ hextension hbarred hfounded (fun _ => nofun),
    fun _ _ => trivial⟩

theorem InStep.readText?_barred {path : Files.Path} :
    InStep w.Barred (Work.readText? path) fun _ _ => True :=
  InStep.readText? fun d e h => by rw [h.eq]

theorem InStep.allVersionEnums_barred {module : String} :
    InStep w.Barred (allVersionEnums w.setup.settings.sdk module) fun texts _ => Keyed texts := by
  refine .bind (InStep.listIfPresent fun d e h => by rw [h.eq]) fun entries _ hentries =>
    .foldlM Keyed.empty fun texts version hversion htexts => ?_
  have hname := isName_of_mem_directoryNames hentries hversion
  refine .bind (.bind InStep.readText?_barred fun text _ _ => .pure (Q := fun _ _ => True)
    fun _ => trivial) fun text _ _ => ?_
  cases text with
  | some text => exact .pure fun _ => htexts.insert hname
  | none => exact .pure fun _ => htexts

variable {streams : Streams} {module : String} {version : Option String}

theorem InStep.writeScopeTypes_barred (hextension : '/' ∈ w.setup.settings.extension.toList)
    (hstreams : streams.Named) (hmodule : IsName module)
    (hversion : version ∈ streams.scopesOf module) :
    InStep w.Barred (w.setup.writeScopeTypes streams module version) fun _ _ => True := by
  have hnames := isName_of_mem_scopeDir hstreams hmodule hversion
  cases version with
  | none =>
    refine .bind InStep.readText?_barred fun enums _ _ => ?_
    have hwrite : ∀ texts, Keyed texts → InStep w.Barred (ScopeTypes.write
        ⟨streams.inputs.modules[module]?.map (·.own), streams.outputs.modules[module]?.map (·.own),
          enums, texts⟩ (w.setup.settings.outputRoot.joins [module]) w.setup.settings.extension)
        fun _ _ => True :=
      fun texts htexts => InStep.writeTypes_barred hextension hnames (by simp) (by simp) htexts
    simp only
    split
    · exact .bind (Q := fun texts _ => Keyed texts) (.pure fun _ => .empty) fun texts _ => hwrite texts
    · exact .bind InStep.allVersionEnums_barred fun texts _ => hwrite texts
  | some version =>
    have hmem : version ∈ streams.versionsOf module := by simpa [Streams.scopesOf] using hversion
    have hnoDot := not_dot_of_isIdentifier (hstreams.isIdentifier_of_mem_versionsOf hmem)
    refine .bind (.bind InStep.readText?_barred fun text _ _ => .pure (Q := fun _ _ => True)
      fun _ => trivial) fun enums _ _ => ?_
    exact @InStep.writeTypes_barred _ _ [module, version] hextension hnames (by simp)
      (by simpa using hnoDot) .empty

theorem RunsInStep.runTypes_barred {types : Except Failure TypesPlan}
    (hextension : '/' ∈ w.setup.settings.extension.toList) (htypes : TypesNamed types)
    (hmodule : IsName module) :
    RunsInStep w.Barred (w.setup.runUnit types (.types module)) (·.unit = .types module) := by
  cases types with
  | error failure => exact .pure rfl
  | ok plan =>
    have hunit : w.setup.runUnit (.ok plan) (.types module) =
      w.setup.runTypes plan.streams module := rfl
    rw [hunit]
    by_cases hissues : (plan.streams.issuesOf module).isEmpty = true
    · rw [Setup.runTypes_eq hissues]
      exact .foldlM rfl fun outcome version hversion hunit => RunsInStep.countTypes hunit
        (InStep.writeScopeTypes_barred hextension (htypes plan rfl) hmodule hversion)
    · unfold Setup.runTypes
      simp only [hissues, Bool.false_eq_true, if_false]
      exact .pure rfl

theorem Barred.runUnits {types : Except Failure TypesPlan} {modules : List String}
    (h : w.Barred d d) (hextension : '/' ∈ w.setup.settings.extension.toList)
    (htypes : TypesNamed types) (hmodules : ∀ module ∈ modules, IsName module) :
    w.Barred ((w.setup.runUnits types (modules.map .types)).run d).2
      ((w.setup.runUnits types (modules.map .types)).run d).2 := by
  induction modules generalizing d with
  | nil => exact h
  | cons module modules ih =>
    obtain ⟨hmodule, hrest⟩ := List.forall_mem_cons.1 hmodules
    rw [List.map_cons, run_runUnits_cons]
    exact ih (RunsInStep.runTypes_barred hextension htypes hmodule d d h).2.1 hrest

theorem Barred.exists_run_writeCore (h : w.Barred d d)
    (hextension : '/' ∈ w.setup.settings.extension.toList) : ∃ failure d',
      (writeCore w.setup.settings.sdk w.setup.settings.packages).run.run d =
        (.error failure, d') ∧ w.Barred d' d' := by
  have hcore : ∀ name ∈ [coreName], IsName name := List.forall_mem_singleton.2 (by decide)
  rcases hmake : ((Deed.make [coreName]).work w.setup.settings.outputRoot).run.run d with
    ⟨result, d'⟩
  obtain ⟨hbarred, hnew⟩ := @Barred.run_deed w d _ [] h hextension
    (.make ⟨by simp, hcore⟩ (by simp)) trivial (fun _ => nofun) _ _ hmake
  have hdirectory : (Work.makeDirectories (Package.core w.setup.settings.packages).path).run.run d =
      (result, d') := hmake
  unfold writeCore
  rw [run_bind, hdirectory]
  cases result with
  | error failure => exact ⟨failure, d', rfl, hbarred⟩
  | ok =>
    have hstem : IsName indexStem := by decide
    obtain ⟨fault, htarget⟩ := hbarred.exists_target_error hextension hcore (by simp) hstem
      (hnew rfl [coreName] (by simp [Deed.made]))
    have hread : ∀ path, (Work.readText path).run.run d' =
        ((d'.readText path).mapError (.io path), d') := by
      intro path
      unfold Work.readText Work.at
      rw [run_adapt, run_ofDisk]
    simp only
    rw [run_bind, hread]
    cases d'.readText (w.setup.settings.sdk.rootFile indexStem) with
    | error fault => exact ⟨_, d', rfl, hbarred⟩
    | ok index =>
      have hindex : d'.target ((Package.core w.setup.settings.packages).path.join
          (w.setup.settings.sdk.fileName indexStem)) = .error fault := htarget
      have hwrite := @DiskM.run_writeBytes_of_target _ _ (cutExports index).toUTF8 _ hindex
      simp only [Except.mapError]
      rw [run_bind]
      unfold Work.writeText Work.at DiskM.writeText
      rw [run_adapt, hwrite]
      exact ⟨_, d', rfl, hbarred⟩

theorem Barred.exists_run_discard_writeCore (h : w.Barred d d)
    (hextension : '/' ∈ w.setup.settings.extension.toList) : ∃ failure d',
      (discard (writeCore w.setup.settings.sdk w.setup.settings.packages)).run.run d =
        (.error failure, d') ∧ w.Barred d' d' := by
  obtain ⟨failure, d', hrun, hend⟩ := h.exists_run_writeCore hextension
  have hbind : discard (writeCore w.setup.settings.sdk w.setup.settings.packages) =
      writeCore w.setup.settings.sdk w.setup.settings.packages >>= fun _ => pure () := rfl
  refine ⟨failure, d', ?_, hend⟩
  rw [hbind, run_bind, hrun]

theorem Barred.runCore {types : Except Failure TypesPlan} (h : w.Barred d d)
    (hextension : '/' ∈ w.setup.settings.extension.toList) :
    w.Barred ((w.setup.runUnit types .core).run d).2 ((w.setup.runUnit types .core).run d).2 := by
  obtain ⟨failure, d', hrun, hend⟩ := h.exists_run_discard_writeCore hextension
  have hcore : w.setup.runUnit types .core = w.setup.makePackage .core
      (.core w.setup.settings.packages)
      (discard (writeCore w.setup.settings.sdk w.setup.settings.packages)) := rfl
  rw [hcore, run_makePackage, hrun]
  exact hend

end Barred

section Stages
variable {w : Workplace} {types : Except Failure TypesPlan} {d : Disk} {memory : Memory}

theorem find?_core_runUnits :
    ((w.setup.runUnits types (planned (types.map (·.units)))).run d).1.find? (·.unit = .core) =
      none := by
  refine List.find?_eq_none.2 fun outcome houtcome heq => ?_
  have hunit : outcome.unit ∈ planned (types.map (·.units)) := by
    rw [← @map_unit_runUnits w.setup d types (planned (types.map (·.units)))]
    exact List.mem_map_of_mem houtcome
  rw [of_decide_eq_true heq] at hunit
  cases types with
  | error failure => cases hunit
  | ok plan =>
    obtain ⟨module, -, hmodule⟩ := List.mem_map.1 hunit
    cases hmodule

theorem Fresh.barred_typesUnits (fresh : w.Fresh)
    (hextension : '/' ∈ w.setup.settings.extension.toList)
    (htypes : ∀ plan, types = .ok plan → plan.Named) :
    w.Barred ((w.setup.runUnits types (planned (types.map (·.units)))).run w.ready).2
      ((w.setup.runUnits types (planned (types.map (·.units)))).run w.ready).2 := by
  cases types with
  | error failure => exact fresh.barred
  | ok plan =>
    have hnamed := htypes plan rfl
    refine fresh.barred.runUnits hextension (fun other hother => ?_) hnamed.modules
    cases hother
    exact hnamed.streams

/-- A build into an empty output root has failures when its extension has a slash. -/
theorem Fresh.failures_of_slash (fresh : w.Fresh) (hmemory : memory.Named)
    (hextension : '/' ∈ w.setup.settings.extension.toList) :
    ((w.plan memory).report (w.stages memory).1.2).failures ≠ [] := by
  obtain ⟨types, session, hrun, hready, hplanned⟩ := w.exists_run_planTypes hmemory
  unfold plan stages
  rw [run_runStages, hrun]
  intro hok
  simp only [hready, run_moduleNames] at hok
  have hbarred := fresh.barred_typesUnits hextension fun plan hplan => (hplanned plan hplan).1
  obtain ⟨-, ⟨modules, hmodules⟩, hunits⟩ := failures_of_report hok
  have hcore : WorkUnit.core ∈ planned (Plan.implementationUnits ⟨types, .ok modules⟩) :=
    List.mem_cons_self
  simp only at hmodules
  rw [hmodules] at hunits
  have hfailures := hunits .core (List.mem_append_right _ hcore)
  have hcons : planned (Plan.implementationUnits ⟨types, .ok modules⟩) =
      .core :: modules.map .implementation := rfl
  rw [List.find?_append, find?_core_runUnits, Option.none_or, hcons, run_runUnits_cons,
    List.find?_cons_of_pos (by simp [unit_runUnit])] at hfailures
  have hrun := run_of_makePackage (hfailures _ rfl)
  obtain ⟨failure, d', hcoreRun, -⟩ := hbarred.exists_run_discard_writeCore hextension
  cases hcoreRun.symm.trans hrun

/-- Whatever the extension is, the stages leave the disk as it may be while the units are run. -/
theorem Fresh.underway_stages (fresh : w.Fresh) (hmemory : memory.Named) :
    w.Underway (w.stages memory).2.disk := by
  by_cases hextension : '/' ∈ w.setup.settings.extension.toList
  · obtain ⟨types, session, hrun, hready, hplanned⟩ := w.exists_run_planTypes hmemory
    have hbarred := fresh.barred_typesUnits hextension fun plan hplan => (hplanned plan hplan).1
    unfold stages
    rw [run_runStages, hrun]
    simp only [hready, run_moduleNames]
    cases hlist : ((w.setup.runUnits types (planned (types.map (·.units)))).run w.ready).2.list
        w.setup.settings.sourceRoot with
    | error fault => exact hbarred.underway
    | ok entries =>
      obtain ⟨-, hmodules⟩ := hbarred.underway.discovered hlist
      simp only [Except.mapError, Except.map, Plan.implementationUnits, planned]
      rw [run_runUnits_cons]
      refine (hbarred.runCore hextension).underway.runUnits fun unit hmem => ?_
      obtain ⟨module, hmodule, rfl⟩ := List.mem_map.1 hmem
      exact ⟨_, (Serial.runImplementation ((hmodules module).1 hmodule)).concurs⟩
  · have hstaged := w.staged hmemory hextension
    have hend := w.underway_ready.runUnits fun unit hunit => ⟨_, hstaged.concurs hextension hunit⟩
    rwa [hstaged.run] at hend

end Stages

end Workplace

end Unbundle.Build
