import Unbundle.Proofs.Build.Approach
import Unbundle.Proofs.Build.Isolation
import Unbundle.Proofs.Build.Opened

/-! A build into an output root that is emptied first. Once the root is made nothing is left of what
it held, and nothing outside of it is touched, so that builds which start with one source come to
the same whatever the output root was before. -/

namespace Unbundle.Build
open Unbundle.Files Unbundle.Declaration
open Unbundle.Files.FileTree (Along Passed)

/-- Directories and links stay, and nothing changes outside of one directory. -/
structure Confined (base : Location) (tree after : FileTree) : Prop where
  keeps : after.Keeps tree
  outside : ∀ {loc}, ¬ base <:+ loc → after.find? loc = tree.find? loc

theorem Confined.refl (base : Location) (tree : FileTree) : Confined base tree tree :=
  ⟨fun _ => ⟨id, fun _ => id⟩, fun _ => rfl⟩

section Unsourced
variable {setup : Setup} {d : Disk} {direction : Direction} {fault : Fault}
  {stages : StateM Session (Plan × List Outcome)}

theorem exists_steps_declarations (sdk : SdkLayout) (direction : Direction) : ∃ rest,
    (sdk.declarations direction).steps = sdk.root.steps ++ .into typesName :: rest ∧
    (sdk.declarations direction).isAbsolute = sdk.root.isAbsolute := by
  have hstem : IsName direction.stem := by cases direction <;> decide
  have htypes := @Path.steps_join sdk.root _ isName_typesName
  have habsolute := @Path.isAbsolute_join sdk.root _ isName_typesName
  unfold SdkLayout.declarations SdkLayout.fileName
  by_cases hextension : '/' ∈ sdk.extension.toList
  · obtain ⟨first, more, hfirst, -, hpiece⟩ := exists_first_fileName hstem hextension
    rw [Path.steps_join_behind hfirst hpiece, Path.isAbsolute_join_behind hfirst hpiece, htypes,
      List.append_assoc]
    exact ⟨_, rfl, habsolute⟩
  · have hname := isName_fileName hstem hextension
    rw [Path.steps_join hname, Path.isAbsolute_join hname, htypes, List.append_assoc]
    exact ⟨_, rfl, habsolute⟩

theorem exists_entry_declarations_error (hfault : setup.settings.sourceRoot.fault? = none)
    (hsource : ∀ dir, d.entry setup.settings.sourceRoot ≠ .ok (dir, .directory))
    (direction : Direction) :
    ∃ fault, d.entry (setup.settings.sdk.declarations direction) = .error fault := by
  cases hentry : d.entry (setup.settings.sdk.declarations direction) with
  | error fault => exact ⟨fault, rfl⟩
  | ok found =>
    obtain ⟨rest, hsteps, habsolute⟩ := exists_steps_declarations setup.settings.sdk direction
    obtain ⟨dir, hdir⟩ := Disk.exists_entry_of_behind hsteps habsolute hfault hentry
    exact absurd hdir (hsource dir)

theorem run_stream_error (h : d.entry (setup.settings.sdk.declarations direction) = .error fault) :
    (setup.stream direction).run.run { disk := d } =
      (.error (.io (setup.settings.sdk.declarations direction) fault), { disk := d }) := by
  have hread : (readStream (setup.settings.sdk.declarations direction) direction
      setup.settings.capture).run.run d =
        (.error (.io (setup.settings.sdk.declarations direction) fault), d) := by
    unfold readStream Work.at
    rw [run_adapt, run_bind, run_ofDisk]
    unfold Disk.readBytes
    rw [h]
    rfl
  have hnone : Memory.get {} direction = none := by cases direction <;> rfl
  unfold Setup.stream
  rw [run_bind, run_get]
  simp only [hnone]
  rw [run_bind, run_ofWork, hread]

theorem exists_run_planTypes_error
    (h : ∀ direction, ∃ fault, d.entry (setup.settings.sdk.declarations direction) = .error fault) :
    ∃ failure, setup.planTypes.run.run { disk := d } = (.error failure, { disk := d }) := by
  obtain ⟨fault, hinputs⟩ := h .inputs
  obtain ⟨fault', houtputs⟩ := h .outputs
  have hstreams : ∃ failure, setup.streams.run.run { disk := d } =
      (.error failure, { disk := d }) := by
    unfold Setup.streams
    rw [run_bind, run_lift, run_stream_error hinputs]
    simp only
    rw [run_bind, run_lift, run_stream_error houtputs]
    exact ⟨_, rfl⟩
  obtain ⟨failure, hstreams⟩ := hstreams
  unfold Setup.planTypes
  rw [run_bind, hstreams]
  exact ⟨failure, rfl⟩

theorem exists_list_error (hsource : ∀ dir, d.entry setup.settings.sourceRoot ≠ .ok (dir, .directory)) :
    ∃ fault, d.list setup.settings.sourceRoot = .error fault := by
  unfold Disk.list
  cases hentry : d.entry setup.settings.sourceRoot with
  | error fault => exact ⟨fault, rfl⟩
  | ok found =>
    obtain ⟨dir, entry⟩ := found
    have hentry : entry.isDirectory = false := by
      cases entry with
      | directory => exact absurd hentry (hsource dir)
      | file content => rfl
      | link target => rfl
    exact ⟨.notDirectory, by simp [bind, Except.bind, hentry]⟩

theorem disk_runStagesIn_of_unsourced {order : List WorkUnit → List WorkUnit}
    (horder : ∀ units, (order units).Perm units)
    (hfault : setup.settings.sourceRoot.fault? = none)
    (hsource : ∀ dir, d.entry setup.settings.sourceRoot ≠ .ok (dir, .directory)) :
    ((setup.runStagesIn order).run { disk := d }).2.disk = d := by
  obtain ⟨failure, hplan⟩ := exists_run_planTypes_error
    (exists_entry_declarations_error hfault hsource)
  obtain ⟨fault, hlist⟩ := exists_list_error hsource
  have hunits : order [] = [] := List.perm_nil.1 (horder [])
  have hnone : (setup.runUnits (.error failure) []).run d = ([], d) := rfl
  rw [Setup.run_runStagesIn, hplan]
  simp only [Except.map, planned, hunits, hnone, run_moduleNames, hlist, Except.mapError,
    Plan.implementationUnits]

theorem Setup.Orders.disk_of_unsourced (h : setup.Orders stages)
    (hfault : setup.settings.sourceRoot.fault? = none)
    (hsource : ∀ dir, d.entry setup.settings.sourceRoot ≠ .ok (dir, .directory)) :
    (stages.run { disk := d }).2.disk = d := by
  cases h with
  | staged perm => exact disk_runStagesIn_of_unsourced perm hfault hsource
  | @mixed order perm =>
    obtain ⟨failure, hplan⟩ := exists_run_planTypes_error
      (exists_entry_declarations_error hfault hsource)
    obtain ⟨fault, hlist⟩ := exists_list_error hsource
    have hunits : order [] = [] := List.perm_nil.1 (perm [])
    have hnone : (setup.runUnits (.error failure) []).run d = ([], d) := rfl
    rw [Setup.run_runMixed, hplan]
    simp only [run_moduleNames, hlist, Plan.units, Plan.typesUnits, Plan.implementationUnits,
      Except.map, Except.mapError, planned, List.append_nil, hunits, hnone]

end Unsourced

section Confined
variable {setup : Setup} {ready : Disk} {output : Location}
  {stages : StateM Session (Plan × List Outcome)}

theorem Workplace.Underway.confined {w : Workplace} {d : Disk} (h : w.Underway d) :
    Confined w.output w.ready.tree d.tree :=
  ⟨h.keeps, fun hloc => h.find?_of_not_suffix hloc⟩

theorem Workplace.Fresh.confined_stages {w : Workplace} (fresh : w.Fresh)
    (horder : w.setup.InOrder stages) :
    Confined w.output w.ready.tree (stages.run { disk := w.ready }).2.disk.tree := by
  cases horder with
  | planned => exact (fresh.underway_stages Memory.named_empty).confined
  | other orders extension =>
    obtain ⟨units, htakes⟩ :=
      exists_takes w.steady_ready rfl Memory.named_empty extension orders
    exact ((htakes.staged rfl Memory.named_empty extension).underway extension).confined

/-- What the stages do from an empty output root on is confined to the root, whether the source root
is there or not. -/
theorem Setup.InOrder.confined_stages (horder : setup.InOrder stages)
    (hroot : ready.entry setup.settings.outputRoot = .ok (output, .directory))
    (hbare : ∀ {loc}, Beneath output loc → ready.tree.find? loc = none)
    (hfault : setup.settings.sourceRoot.fault? = none)
    (hapart : ∀ source, ready.entry setup.settings.sourceRoot = .ok (source, .directory) →
      ¬ source <:+ output ∧ ¬ output <:+ source) :
    Confined output ready.tree (stages.run { disk := ready }).2.disk.tree := by
  by_cases hsource : ∃ source, ready.entry setup.settings.sourceRoot = .ok (source, .directory)
  · obtain ⟨source, hsource⟩ := hsource
    let place : Workplace :=
      { setup, ready, source, output
        leadsSource := hsource
        leadsOutput := hroot
        sourceApart := (hapart source hsource).1
        outputApart := (hapart source hsource).2
        noLink := by
          intro loc hloc target hlink
          by_cases heq : loc = output
          · rw [heq, (Disk.follow_of_entry hroot).2] at hlink
            cases hlink
          · rw [hbare ⟨hloc, heq⟩] at hlink
            cases hlink }
    have hfresh : place.Fresh := hbare
    exact hfresh.confined_stages horder
  · have hend := horder.orders.disk_of_unsourced hfault fun dir hdir => hsource ⟨dir, hdir⟩
    rw [hend]
    exact .refl _ _

end Confined

/-- A tree that a clean build starts with: the output root, to which the path leads on through plain
names, is not there or is a directory. -/
structure Setup.CleanStart (setup : Setup) (home base : Location) (names : List String)
    (name : String) (tree : FileTree) : Prop extends setup.Approach home base names name tree where
  clean : setup.settings.clean = true
  found : tree.find? (name :: (names.reverse ++ base)) = none ∨
    Disk.entry { home, tree } setup.settings.outputRoot =
      .ok (name :: (names.reverse ++ base), .directory)

/-- What a clean build makes of a tree before its stages: the output root is taken away and its
directories are made anew. -/
def Setup.emptied (setup : Setup) (base : Location) (names : List String) (name : String)
    (tree : FileTree) : Except Fault Unit × FileTree :=
  match setup.settings.outputRoot.fault? with
  | some fault => (.error fault, tree.erase (name :: (names.reverse ++ base)))
  | none => (tree.erase (name :: (names.reverse ++ base))).pave base (names ++ [name])

section Emptied
variable {setup : Setup} {home base loc : Location} {names : List String} {name : String}
  {tree first second : FileTree} {stages : StateM Session (Plan × List Outcome)}

namespace Setup.CleanStart

theorem spared_eq (h : setup.CleanStart home base names name tree) {output : Location} :
    setup.spared output tree = tree.erase output := by
  rw [Setup.spared, if_pos h.clean]

theorem run_makeOutputRoot (h : setup.CleanStart home base names name tree) :
    setup.makeOutputRoot.run.run { home, tree } =
      ((setup.emptied base names name tree).1.mapError (.io setup.settings.outputRoot),
        { home, tree := (setup.emptied base names name tree).2 }) := by
  unfold Setup.emptied
  cases hfault : setup.settings.outputRoot.fault? with
  | some fault =>
    have hnone : tree.find? (name :: (names.reverse ++ base)) = none := by
      refine h.found.resolve_right fun hentry => ?_
      rw [Disk.fault?_of_entry hentry] at hfault
      cases hfault
    rw [h.run_of_fault hfault, FileTree.erase_of_find?_none (by simp) hnone]
    rfl
  | none =>
    have hopen : tree.Open (name :: (names.reverse ++ base)) :=
      h.found.imp_right fun hentry => (Disk.follow_of_entry hentry).2
    rw [h.toApproach.run_makeOutputRoot hfault fun _ => hopen, h.spared_eq]

theorem find?_base (h : setup.CleanStart home base names name tree) :
    (tree.erase (name :: (names.reverse ++ base))).find? base = some .directory := by
  rw [← h.spared_eq]
  exact h.leads.found _ (List.mem_singleton_self _)

theorem find?_emptied (h : setup.CleanStart home base names name tree)
    (hloc : ¬ (name :: (names.reverse ++ base)) <:+ loc) :
    (setup.emptied base names name tree).2.find? loc = tree.find? loc ∨
      Passed base (names ++ [name]) loc ∧ tree.find? loc = none ∧
        (setup.emptied base names name tree).2.find? loc = some .directory := by
  have herase : (tree.erase (name :: (names.reverse ++ base))).find? loc = tree.find? loc :=
    FileTree.find?_erase_of_not_suffix hloc
  unfold Setup.emptied
  cases setup.settings.outputRoot.fault? with
  | some fault => exact .inl herase
  | none =>
    have hpave := FileTree.find?_pave (names ++ [name]) h.find?_base loc
    rwa [herase] at hpave

theorem find?_emptied_below (h : setup.CleanStart home base names name tree)
    (hloc : Beneath (name :: (names.reverse ++ base)) loc) :
    (setup.emptied base names name tree).2.find? loc = none := by
  have herase : (tree.erase (name :: (names.reverse ++ base))).find? loc = none :=
    FileTree.find?_erase_of_suffix hloc.1
  unfold Setup.emptied
  cases setup.settings.outputRoot.fault? with
  | some fault => exact herase
  | none =>
    exact (FileTree.find?_pave_beneath h.find?_base (by simpa using hloc)).trans herase

theorem fault?_of_ok (hok : (setup.emptied base names name tree).1 = .ok ()) :
    setup.settings.outputRoot.fault? = none ∧
      ((tree.erase (name :: (names.reverse ++ base))).pave base (names ++ [name])).1 = .ok () := by
  unfold Setup.emptied at hok
  cases hfault : setup.settings.outputRoot.fault? with
  | some fault =>
    rw [hfault] at hok
    cases hok
  | none =>
    rw [hfault] at hok
    exact ⟨rfl, hok⟩

theorem find?_emptied_passed (h : setup.CleanStart home base names name tree)
    (hok : (setup.emptied base names name tree).1 = .ok ()) (hloc : Passed base (names ++ [name]) loc) :
    (setup.emptied base names name tree).2.find? loc = some .directory := by
  obtain ⟨hfault, hpave⟩ := fault?_of_ok hok
  obtain ⟨more, -, ⟨rest, hrest⟩, rfl⟩ := hloc
  have hmade := FileTree.find?_pave_ok h.find?_base hpave
  rw [← hrest, List.reverse_append, List.append_assoc] at hmade
  unfold Setup.emptied
  rw [hfault]
  simpa [hrest] using FileTree.find?_above hmade

theorem entry_emptied (h : setup.CleanStart home base names name tree)
    (hok : (setup.emptied base names name tree).1 = .ok ()) :
    Disk.entry { home, tree := (setup.emptied base names name tree).2 } setup.settings.outputRoot =
      .ok (name :: (names.reverse ++ base), .directory) := by
  have hmake := h.run_makeOutputRoot
  rw [hok] at hmake
  exact h.toApproach.entry_of_ok hmake

theorem compatible_emptied (h : setup.CleanStart home base names name tree)
    (hok : (setup.emptied base names name tree).1 = .ok ()) :
    tree.Compatible (setup.emptied base names name tree).2 := by
  intro loc
  by_cases hloc : (name :: (names.reverse ++ base)) <:+ loc
  · by_cases heq : loc = name :: (names.reverse ++ base)
    · subst heq
      rcases h.found with hnone | hentry
      · exact .inl hnone
      · have hmade := (Disk.follow_of_entry (h.entry_emptied hok)).2
        exact .inr (.inr ((Disk.follow_of_entry hentry).2.trans hmade.symm))
    · exact .inr (.inl (h.find?_emptied_below ⟨hloc, heq⟩))
  · rcases h.find?_emptied hloc with hsame | ⟨-, hnone, -⟩
    · exact .inr (.inr hsame.symm)
    · exact .inl hnone

end Setup.CleanStart

theorem passed_concat (h : Passed base (names ++ [name]) loc) :
    Passed base names loc ∨ loc = name :: (names.reverse ++ base) := by
  obtain ⟨first, hne, hprefix, rfl⟩ := h
  rcases List.prefix_concat_iff.1 hprefix with rfl | hprefix
  · exact .inr (by simp)
  · exact .inl ⟨first, hne, hprefix, rfl⟩

theorem not_suffix_of_passed (h : Passed base names loc) :
    ¬ (name :: (names.reverse ++ base)) <:+ loc := by
  obtain ⟨first, -, hprefix, rfl⟩ := h
  intro hsuffix
  have hlength := hsuffix.length_le
  have hprefix := hprefix.length_le
  simp only [List.length_cons, List.length_append, List.length_reverse] at hlength
  omega

/-- Trees that differ in the output root alone, and in which of the directories on the way to it are
there. -/
def Setup.SameBeside (base : Location) (names : List String) (name : String)
    (first second : FileTree) : Prop :=
  ∀ loc, ¬ (name :: (names.reverse ++ base)) <:+ loc →
    first.find? loc = second.find? loc ∨ Passed base names loc ∧ first.Open loc ∧ second.Open loc

theorem Setup.SameBeside.open_erase (hsame : Setup.SameBeside base names name first second)
    (hpassed : Passed base (names ++ [name]) loc) :
    (first.erase (name :: (names.reverse ++ base))).Open loc ↔
      (second.erase (name :: (names.reverse ++ base))).Open loc := by
  rcases passed_concat hpassed with hpassed | rfl
  · have hloc := @not_suffix_of_passed _ _ _ name hpassed
    unfold FileTree.Open
    rw [FileTree.find?_erase_of_not_suffix hloc, FileTree.find?_erase_of_not_suffix hloc]
    rcases hsame loc hloc with heq | ⟨-, hboth, hboth'⟩
    · rw [heq]
    · exact iff_of_true hboth hboth'
  · exact iff_of_true (.inl (FileTree.find?_erase_of_suffix (List.suffix_refl _)))
      (.inl (FileTree.find?_erase_of_suffix (List.suffix_refl _)))

theorem Setup.SameBeside.emptied_result (hsame : Setup.SameBeside base names name first second)
    (hfirst : setup.CleanStart home base names name first)
    (hsecond : setup.CleanStart home base names name second) :
    (setup.emptied base names name first).1 = (setup.emptied base names name second).1 := by
  unfold Setup.emptied
  cases setup.settings.outputRoot.fault? with
  | some fault => rfl
  | none => exact (FileTree.pave_congr hfirst.find?_base hsecond.find?_base
      fun _ hpassed => hsame.open_erase hpassed).1

theorem Setup.SameBeside.emptied_within (hsame : Setup.SameBeside base names name first second)
    (hfirst : setup.CleanStart home base names name first)
    (hsecond : setup.CleanStart home base names name second)
    (hloc : (name :: (names.reverse ++ base)) <:+ loc) :
    (setup.emptied base names name first).2.find? loc =
      (setup.emptied base names name second).2.find? loc := by
  have herased : (first.erase (name :: (names.reverse ++ base))).find? loc =
      (second.erase (name :: (names.reverse ++ base))).find? loc :=
    (FileTree.find?_erase_of_suffix hloc).trans (FileTree.find?_erase_of_suffix hloc).symm
  unfold Setup.emptied
  cases setup.settings.outputRoot.fault? with
  | some fault => exact herased
  | none =>
    rcases (FileTree.pave_congr hfirst.find?_base hsecond.find?_base
        fun _ hpassed => hsame.open_erase hpassed).2 loc with
      ⟨hkept, hkept'⟩ | ⟨-, -, -, hmade, hmade'⟩
    · exact hkept.trans (herased.trans hkept'.symm)
    · exact hmade.trans hmade'.symm

theorem Setup.SameBeside.emptied_congr (hsame : Setup.SameBeside base names name first second)
    (hfirst : setup.CleanStart home base names name first)
    (hsecond : setup.CleanStart home base names name second) :
    (setup.emptied base names name first).1 = (setup.emptied base names name second).1 ∧
    (∀ {loc}, (name :: (names.reverse ++ base)) <:+ loc →
      (setup.emptied base names name first).2.find? loc =
        (setup.emptied base names name second).2.find? loc) ∧
    ((setup.emptied base names name first).1 = .ok () →
      (setup.emptied base names name first).2 = (setup.emptied base names name second).2) := by
  have heq := hsame.emptied_result hfirst hsecond
  refine ⟨heq, hsame.emptied_within hfirst hsecond, fun hok => FileTree.ext fun loc => ?_⟩
  by_cases hloc : (name :: (names.reverse ++ base)) <:+ loc
  · exact hsame.emptied_within hfirst hsecond hloc
  · by_cases hpassed : Passed base (names ++ [name]) loc
    · rw [hfirst.find?_emptied_passed hok hpassed,
        hsecond.find?_emptied_passed (heq.symm.trans hok) hpassed]
    · have hkept := (hfirst.find?_emptied hloc).resolve_right fun hmade => hpassed hmade.1
      have hkept' := (hsecond.find?_emptied hloc).resolve_right fun hmade => hpassed hmade.1
      have hbeside := (hsame loc hloc).resolve_right fun hmade => by
        obtain ⟨⟨more, hne, hmore, rfl⟩, -⟩ := hmade
        exact hpassed ⟨more, hne, hmore.trans (List.prefix_append _ _), rfl⟩
      rw [hkept, hkept', hbeside]

/-- A clean build by its parts: it fails to make the output root, or it goes through its stages from
there. -/
theorem Setup.CleanStart.buildByAt_cases (h : setup.CleanStart home base names name tree) :
    (∃ failure, (setup.emptied base names name tree).1.mapError
        (.io setup.settings.outputRoot) = .error failure ∧
      setup.buildByAt stages home tree = (.error failure, (setup.emptied base names name tree).2)) ∨
    (setup.emptied base names name tree).1 = .ok () ∧
      setup.buildByAt stages home tree =
        (let passed := stages.run { disk := { home, tree := (setup.emptied base names name tree).2 } }
        (.ok ⟨passed.1.1.report passed.1.2, passed.1.2.flatMap (·.announced)⟩,
          passed.2.disk.tree)) := by
  have hmake := h.run_makeOutputRoot
  cases hresult : (setup.emptied base names name tree).1 with
  | error fault =>
    rw [hresult] at hmake
    have hbuild := @Setup.run_buildBy_error setup { disk := { home, tree } } _ stages _ hmake
    exact .inl ⟨_, rfl, by rw [Setup.buildByAt, hbuild]⟩
  | ok =>
    rw [hresult] at hmake
    have hbuild := @Setup.run_buildBy setup { disk := { home, tree } } _ stages hmake
    exact .inr ⟨rfl, by rw [Setup.buildByAt, hbuild]⟩

variable {source : Location}

theorem Setup.CleanStart.confined_buildByAt (h : setup.CleanStart home base names name tree)
    (horder : setup.InOrder stages)
    (hsource : Disk.entry { home, tree } setup.settings.sourceRoot = .ok (source, .directory))
    (hsourceApart : ¬ source <:+ name :: (names.reverse ++ base))
    (houtputApart : ¬ name :: (names.reverse ++ base) <:+ source) :
    Confined (name :: (names.reverse ++ base)) (setup.emptied base names name tree).2
      (setup.buildByAt stages home tree).2 := by
  rcases @buildByAt_cases _ _ _ _ _ _ stages h with ⟨failure, -, hbuild⟩ | ⟨hok, hbuild⟩
  · rw [hbuild]
    exact .refl _ _
  · have hapart : ∀ other, Disk.entry { home, tree := (setup.emptied base names name tree).2 }
        setup.settings.sourceRoot = .ok (other, .directory) →
        ¬ other <:+ name :: (names.reverse ++ base) ∧
          ¬ name :: (names.reverse ++ base) <:+ other := fun other hother => by
      obtain rfl := @Disk.entry_eq_of_compatible { home, tree } _ _
        { home, tree := (setup.emptied base names name tree).2 } _ rfl (h.compatible_emptied hok)
        hsource hother
      exact ⟨hsourceApart, houtputApart⟩
    have hend := horder.confined_stages (h.entry_emptied hok)
      (fun hloc => h.find?_emptied_below hloc) (Disk.fault?_of_entry hsource) hapart
    rw [hbuild]
    exact hend

theorem Setup.CleanStart.find?_emptied_source (h : setup.CleanStart home base names name tree)
    (hsourceApart : ¬ source <:+ name :: (names.reverse ++ base))
    (houtputApart : ¬ name :: (names.reverse ++ base) <:+ source) (hloc : source <:+ loc) :
    (setup.emptied base names name tree).2.find? loc = tree.find? loc := by
  have hbeside : ¬ name :: (names.reverse ++ base) <:+ loc := fun houtput =>
    (suffix_or_suffix hloc houtput).elim hsourceApart houtputApart
  refine (h.find?_emptied hbeside).resolve_right fun hmade => ?_
  obtain ⟨⟨first, -, hfirst, rfl⟩, -⟩ := hmade
  have habove : first.reverse ++ base <:+ (names ++ [name]).reverse ++ base :=
    reverse_append_suffix.2 hfirst
  exact hsourceApart (hloc.trans (by simpa using habove))

/-- Clean builds that start with the same, but for the output root and which of the directories on
the way to it are there, and that go through their stages in the same way, come to the same result
and leave the same in the output root. Nothing below the source root changes. -/
theorem Setup.buildByAt_clean (hfirst : setup.CleanStart home base names name first)
    (hsecond : setup.CleanStart home base names name second)
    (hsame : Setup.SameBeside base names name first second)
    (hsource : Disk.entry { home, tree := first } setup.settings.sourceRoot =
      .ok (source, .directory))
    (hsourceApart : ¬ source <:+ name :: (names.reverse ++ base))
    (houtputApart : ¬ name :: (names.reverse ++ base) <:+ source) :
    (setup.buildByAt stages home first).1 = (setup.buildByAt stages home second).1 ∧
    (∀ loc, name :: (names.reverse ++ base) <:+ loc →
      (setup.buildByAt stages home first).2.find? loc =
        (setup.buildByAt stages home second).2.find? loc) ∧
    (setup.InOrder stages → ∀ loc, source <:+ loc →
      (setup.buildByAt stages home first).2.find? loc = first.find? loc ∧
      (setup.buildByAt stages home second).2.find? loc = second.find? loc) := by
  obtain ⟨hresult, hbelow, hready⟩ := hsame.emptied_congr hfirst hsecond
  have hkept : ∀ {loc}, source <:+ loc →
      (setup.emptied base names name first).2.find? loc = first.find? loc :=
    fun hloc => hfirst.find?_emptied_source hsourceApart houtputApart hloc
  have hkept' : ∀ {loc}, source <:+ loc →
      (setup.emptied base names name second).2.find? loc = second.find? loc :=
    fun hloc => hsecond.find?_emptied_source hsourceApart houtputApart hloc
  rcases @CleanStart.buildByAt_cases _ _ _ _ _ _ stages hfirst with
    ⟨failure, hfailure, hbuild⟩ | ⟨hok, hbuild⟩
  · rcases @CleanStart.buildByAt_cases _ _ _ _ _ _ stages hsecond with
      ⟨failure', hfailure', hbuild'⟩ | ⟨hok', -⟩
    · rw [hbuild, hbuild']
      rw [hresult, hfailure'] at hfailure
      obtain rfl := Except.error.inj hfailure
      exact ⟨rfl, fun loc hloc => hbelow hloc, fun _ loc hloc => ⟨hkept hloc, hkept' hloc⟩⟩
    · rw [hresult, hok'] at hfailure
      cases hfailure
  · have hbuild' : setup.buildByAt stages home second = setup.buildByAt stages home first := by
      rcases @CleanStart.buildByAt_cases _ _ _ _ _ _ stages hsecond with
        ⟨failure', hfailure', -⟩ | ⟨-, hbuild'⟩
      · rw [← hresult, hok] at hfailure'
        cases hfailure'
      · rw [hbuild, hbuild', hready hok]
    rw [hbuild']
    refine ⟨rfl, fun _ _ => rfl, fun horder loc hloc => ?_⟩
    have hconfined := hfirst.confined_buildByAt horder hsource hsourceApart houtputApart
    have hbeside : ¬ name :: (names.reverse ++ base) <:+ loc := fun houtput =>
      (suffix_or_suffix hloc houtput).elim hsourceApart houtputApart
    rw [hconfined.outside hbeside]
    refine ⟨hkept hloc, ?_⟩
    rw [hready hok]
    exact hkept' hloc

end Emptied

section Web

def cleanSetup (root : String) : Setup :=
  setupOf { webSettings with clean := true, outputRoot := ⟨root⟩ }

/-- The streams of a module `web` and the index of the source root. -/
def sdkTree : FileTree := (diskOf [(["input.ts", "types", "sdk"], "export namespace web \x7b\n\x7d\n"),
  (["output.ts", "types", "sdk"], ""), (["index.ts", "sdk"], "")]).tree

def clutteredTree : FileTree :=
  (sdkTree.plant ["old.ts", "packages", "out"] (.file ByteArray.empty)).plant
    ["web", "packages", "out"] (.link ⟨"/sdk"⟩)

theorem approach_sdkTree {tree : FileTree} (h : ∀ loc, loc.length ≤ 2 → tree.NoLink loc) :
    (cleanSetup "/out/packages").Approach [] [] ["out"] "packages" tree where
  leads := ⟨fun ground hground => List.mem_singleton.1 hground ▸ FileTree.root _, [], by decide,
    fun _ _ => ⟨_, .stop⟩⟩
  plain := ⟨h _ (by decide), h _ (by decide), trivial⟩

theorem sameBeside_clutteredTree : Setup.SameBeside [] ["out"] "packages" clutteredTree sdkTree := by
  intro loc hloc
  by_cases hout : loc = ["out"]
  · subst hout
    exact .inr ⟨⟨["out"], by simp, List.prefix_refl _, rfl⟩, .inr (by decide +kernel),
      .inl (by decide +kernel)⟩
  · left
    have herase : clutteredTree.erase ["out"] = sdkTree := eq_of_toList (by decide +kernel)
    rw [← herase, FileTree.find?_erase (by simp)]
    split
    · next hbelow =>
      cases hfind : clutteredTree.find? loc with
      | none => rfl
      | some entry =>
        have hall := @entry_of_all clutteredTree (fun loc _ => !(["out"].isSuffixOf loc) ||
          loc == ["out"] || ["packages", "out"].isSuffixOf loc) (by decide +kernel) _ _ hfind
        have hbelow : ["out"].isSuffixOf loc = true := List.isSuffixOf_iff_suffix.2 hbelow
        have hpackages : ["packages", "out"].isSuffixOf loc = false :=
          Bool.eq_false_iff.2 fun hsuffix => hloc (List.isSuffixOf_iff_suffix.1 hsuffix)
        simp [hbelow, hpackages, hout] at hall
    · rfl

theorem cleanStart_sdkTree :
    (cleanSetup "/out/packages").CleanStart [] [] ["out"] "packages" sdkTree where
  toApproach := approach_sdkTree fun loc _ => noLink_of_all (by decide +kernel) loc
  clean := rfl
  found := .inl (by decide +kernel)

theorem cleanStart_clutteredTree :
    (cleanSetup "/out/packages").CleanStart [] [] ["out"] "packages" clutteredTree where
  toApproach := approach_sdkTree fun loc hlength target hfind => by
    have hall := @entry_of_all clutteredTree (fun loc entry => !isLink entry || loc.length == 3)
      (by decide +kernel) _ _ hfind
    simp [isLink] at hall
    omega
  clean := rfl
  found := .inr (by decide +kernel)

/-- Nothing is left of the file and the link, when the units are taken the other way round. -/
theorem Setup.buildByAt_clean_cluttered :
    (cleanSetup "/out/packages").CleanStart [] [] ["out"] "packages" clutteredTree ∧
    (cleanSetup "/out/packages").CleanStart [] [] ["out"] "packages" sdkTree ∧
    Setup.SameBeside [] ["out"] "packages" clutteredTree sdkTree ∧
    Disk.entry { home := [], tree := clutteredTree } ⟨"/sdk"⟩ = .ok (["sdk"], .directory) ∧
    let setup := cleanSetup "/out/packages"
    let stages := setup.runMixed List.reverse
    (setup.buildByAt stages [] clutteredTree).1 = (setup.buildByAt stages [] sdkTree).1 ∧
    (∀ loc, ["packages", "out"] <:+ loc →
      (setup.buildByAt stages [] clutteredTree).2.find? loc =
        (setup.buildByAt stages [] sdkTree).2.find? loc) ∧
    ∀ loc, ["sdk"] <:+ loc →
      (setup.buildByAt stages [] clutteredTree).2.find? loc = clutteredTree.find? loc ∧
      (setup.buildByAt stages [] sdkTree).2.find? loc = sdkTree.find? loc := by
  have hsource : Disk.entry { home := [], tree := clutteredTree } ⟨"/sdk"⟩ =
      .ok (["sdk"], .directory) := by decide +kernel
  obtain ⟨hresult, houtput, hkept⟩ := @Setup.buildByAt_clean _ _ _ _ _ _ _
    ((cleanSetup "/out/packages").runMixed List.reverse) _ cleanStart_clutteredTree
    cleanStart_sdkTree sameBeside_clutteredTree hsource (by decide) (by decide)
  exact ⟨cleanStart_clutteredTree, cleanStart_sdkTree, sameBeside_clutteredTree, hsource, hresult,
    houtput, hkept (.other (.mixed List.reverse_perm) (by decide))⟩

def staleTree : FileTree := sdkTree.plant ["old.ts", "packages"] (.file ByteArray.empty)

def failureOf : Except Failure Result → Option Failure
  | .ok _ => none
  | .error failure => some failure

/-- A path that turns back names nothing until the build has made its directories, so that a clean
build takes nothing away. One that stays where it is names the output root, but not for taking it
away, and fails in another way when there is nothing. -/
theorem buildByAt_clean_differs :
    staleTree.find? ["packages"] = some .directory ∧ sdkTree.find? ["packages"] = none ∧
    staleTree.erase ["packages"] = sdkTree ∧ (∀ loc, staleTree.NoLink loc) ∧
    Disk.entry { home := [], tree := staleTree } ⟨"/sdk"⟩ = .ok (["sdk"], .directory) ∧
    (let setup := cleanSetup "/packages/x/.."
    (setup.buildByAt setup.runStages [] staleTree).2.find? ["old.ts", "packages"] ≠
      (setup.buildByAt setup.runStages [] sdkTree).2.find? ["old.ts", "packages"]) ∧
    let setup := cleanSetup "/packages/."
    failureOf (setup.buildByAt setup.runStages [] staleTree).1 ≠
      failureOf (setup.buildByAt setup.runStages [] sdkTree).1 := by
  refine ⟨by decide +kernel, by decide +kernel, eq_of_toList (by decide +kernel),
    noLink_of_all (by decide +kernel), by decide +kernel, ?_, ?_⟩
  · decide +kernel
  · decide +kernel

end Web

end Unbundle.Build
