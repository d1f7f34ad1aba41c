import Unbundle.Proofs.Build.Accounts
import Unbundle.Proofs.Build.CleanBuild
import Unbundle.Proofs.Files.Settled

/-! A build done once more. The units of a build make directories and write files, and what they
read stays as it was, so that they come to the same again and write the same files over. Where the
output root is made as it was before, or is there and stays, the second build leaves the tree as the
first one did. -/

namespace Unbundle.Build
open Unbundle.Files Unbundle.Declaration
open Unbundle.Files.FileTree (Along Passed)

section Order
variable {setup : Setup} {stages : StateM Session (Plan × List Outcome)} {home : Location}
  {tree other : FileTree} {ready : Disk}

theorem Setup.buildByAt_congr
    (h : setup.makeOutputRoot.run.run { home, tree := other } =
      setup.makeOutputRoot.run.run { home, tree }) :
    setup.buildByAt stages home other = setup.buildByAt stages home tree := by
  have hbuild : (setup.buildBy stages).run.run { disk := { home, tree := other } } =
      (setup.buildBy stages).run.run { disk := { home, tree } } := by
    unfold buildBy
    rw [run_bind, run_bind, run_ofWork, run_ofWork, h]
  unfold buildByAt
  rw [hbuild]

theorem Setup.buildByAt_of_ok {result : Plan × List Outcome} {after : Session}
    (h : setup.makeOutputRoot.run.run { home, tree } = (.ok (), ready))
    (hrun : stages.run { disk := ready } = (result, after)) :
    setup.buildByAt stages home tree =
      (.ok ⟨result.1.report result.2, result.2.flatMap (·.announced)⟩, after.disk.tree) := by
  unfold buildByAt
  rw [@run_buildBy_of_stages setup { disk := { home, tree } } _ stages _ _ _ h hrun]

theorem Setup.buildByAt_of_error {failure : Failure}
    (h : setup.makeOutputRoot.run.run { home, tree } = (.error failure, ready)) :
    setup.buildByAt stages home tree = (.error failure, ready.tree) := by
  unfold buildByAt
  rw [@run_buildBy_error setup { disk := { home, tree } } _ stages _ h]

end Order

namespace Workplace

section Settled
variable {α β : Type} {w : Workplace} {kind : Deed → Prop} {d e : Disk} {work : StateM Disk α}
  {types : Except Failure TypesPlan} {units : List WorkUnit}

theorem Scripted.exists_settled {work : Work α} {Q : α → List Deed → Prop}
    (h : w.Scripted [] kind work Q) (hlinks : w.Unlinked) (hd : w.Underway d) :
    ∃ log, Settled w.Underway work.run d log := by
  obtain ⟨script, hplays, -⟩ := h _ (steady_underway hlinks)
  obtain ⟨deeds, hdeeds⟩ := exists_settled_perform hd.standing
    (fun deed hdeed => (hplays.deeds deed hdeed).1) hplays.founded fun _ => nofun
  obtain ⟨log, hlog⟩ : ∃ log, Settled (Standing w.setup.settings.outputRoot w.output)
      (script.work w.setup.settings.outputRoot).run d log := by
    refine hdeeds.exists_bind fun _ _ => ?_
    cases script.result with
    | ok a => exact ⟨_, .pure hdeeds.stays⟩
    | error failure => exact ⟨_, .pure hdeeds.stays⟩
  have hrun : ∀ {e}, w.Underway e → work.run.run e =
      (script.work w.setup.settings.outputRoot).run.run e := fun he => hplays.run he
  refine ⟨log, h.concurs.underway hd, ?_, ?_, ?_, fun {e} he hgrown => ?_⟩
  · rw [hrun hd]
    exact hlog.grows
  · rw [hrun hd]
    exact hlog.written
  · rw [hrun hd]
    exact hlog.kept
  · rw [hrun hd] at hgrown ⊢
    obtain ⟨hresult, -, hover⟩ := hlog.again he.standing hgrown
    refine ⟨?_, h.concurs.underway he, fun loc => ?_⟩
    · rw [hrun he, hresult]
    · rw [hrun he, hover]

theorem Serial.exists_settled (h : w.Serial kind work) (hlinks : w.Unlinked) (hd : w.Underway d) :
    ∃ log, Settled w.Underway work d log := by
  induction h generalizing d with
  | pure => exact ⟨_, .pure hd⟩
  | script scripted => exact scripted.exists_settled hlinks hd
  | bind _ _ ih ihnext =>
    obtain ⟨log, hlog⟩ := ih hd
    obtain ⟨more, hmore⟩ := ihnext _ hlog.stays
    exact ⟨_, hlog.bind hmore⟩

theorem Serial.runUnits (h : ∀ unit ∈ units, w.Serial kind (w.setup.runUnit types unit)) :
    w.Serial kind (w.setup.runUnits types units) := by
  unfold Setup.runUnits
  induction units with
  | nil => exact .pure
  | cons unit units ih =>
    obtain ⟨hunit, hunits⟩ := List.forall_mem_cons.1 h
    rw [List.mapM_cons]
    exact .bind hunit fun _ => .bind (ih hunits) fun _ => .pure

end Settled

theorem Takes.again {w : Workplace} {stages : StateM Session (Plan × List Outcome)}
    {units : List WorkUnit} {result : Plan × List Outcome} {after : Session}
    (h : w.Takes {} w.Underway stages units) (hlinks : w.Unlinked)
    (hextension : '/' ∉ w.setup.settings.extension.toList)
    (hrun : stages.run { disk := w.ready } = (result, after)) :
    w.Underway after.disk ∧ ∀ e, w.Underway e → e.tree = after.disk.tree → ∃ again : Session,
      stages.run { disk := e } = (result, again) ∧ again.disk.tree = e.tree := by
  have hstaged := w.staged Memory.named_empty hextension
  have hserial : w.Serial (fun _ => True) (w.setup.runUnits (w.plan {}).types units) :=
    .runUnits fun unit hunit => (Serial.runUnit hextension hstaged.named
      (hstaged.suits unit (h.perm.mem_iff.1 hunit))).mono fun _ _ => trivial
  obtain ⟨log, hlog⟩ := hserial.exists_settled hlinks w.underway_ready
  obtain ⟨memory, hstages⟩ := h.run w.underway_ready
  rw [hstages] at hrun
  obtain ⟨rfl, rfl⟩ := Prod.mk.inj hrun
  refine ⟨hlog.stays, fun e he htree => ?_⟩
  obtain ⟨houtcomes, htree'⟩ := hlog.tree_eq he htree
  obtain ⟨memory', hagain⟩ := h.run he
  exact ⟨_, hagain.trans (Prod.ext (Prod.ext rfl houtcomes) rfl), htree'⟩

end Workplace

/-- Where the roots of a build are once its output root is made: apart from each other, and without
links in them. The source root may be missing. -/
structure Setup.Placed (setup : Setup) (ready : Disk) (output : Location) : Prop where
  fault : setup.settings.sourceRoot.fault? = none
  leads : ready.entry setup.settings.outputRoot = .ok (output, .directory)
  noLink : ∀ {loc}, output <:+ loc → ready.tree.NoLink loc
  source : ∀ {source}, ready.entry setup.settings.sourceRoot = .ok (source, .directory) →
    ¬ source <:+ output ∧ ¬ output <:+ source ∧ ∀ {loc}, source <:+ loc → ready.tree.NoLink loc

/-- How a build comes to its output root such that it comes to it again in the same way. -/
inductive Setup.Returns (setup : Setup) (home : Location) (tree : FileTree) : Prop where
  /-- Nothing is taken away, and the root can be made. -/
  | made {ready : Disk} (clean : setup.settings.clean = false)
      (run : setup.makeOutputRoot.run.run { home, tree } = (.ok (), ready))
  /-- The path of the root leads on through plain names from a directory that stays. -/
  | approach {base : Location} {names : List String} {name : String}
      (approach : setup.Approach home base names name tree)

section Again
variable {setup : Setup} {stages : StateM Session (Plan × List Outcome)}
  {home base loc output : Location}
  {names : List String} {name : String} {tree after : FileTree} {ready : Disk} {failure : Failure}

theorem Setup.Placed.stages_again {result : Plan × List Outcome} {after : Session}
    (h : setup.Placed ready output) (hextension : '/' ∉ setup.settings.extension.toList)
    (horders : setup.Orders stages) (hrun : stages.run { disk := ready } = (result, after)) :
    Confined output ready.tree after.disk.tree ∧ ∃ again : Session,
      stages.run { disk := { ready with tree := after.disk.tree } } = (result, again) ∧
        again.disk.tree = after.disk.tree := by
  by_cases hsource : ∃ source, ready.entry setup.settings.sourceRoot = .ok (source, .directory)
  · obtain ⟨source, hsource⟩ := hsource
    obtain ⟨hsourceApart, houtputApart, hlinks⟩ := h.source hsource
    obtain ⟨place, rfl, rfl, rfl, rfl⟩ : ∃ w : Workplace,
        w.setup = setup ∧ w.ready = ready ∧ w.source = source ∧ w.output = output :=
      ⟨⟨setup, ready, source, output, hsource, h.leads, hsourceApart, houtputApart, h.noLink⟩,
        rfl, rfl, rfl, rfl⟩
    obtain ⟨units, htakes⟩ := Workplace.exists_takes (Workplace.steady_underway hlinks)
      place.underway_ready Memory.named_empty hextension horders
    obtain ⟨hend, hagain⟩ := htakes.again hlinks hextension hrun
    refine ⟨hend.confined, hagain _ ?_ rfl⟩
    exact ⟨rfl, rfl, hend.marked, [], rfl, rfl, nofun⟩
  · have hsame := horders.disk_of_unsourced h.fault fun dir hdir => hsource ⟨dir, hdir⟩
    rw [hrun] at hsame
    obtain rfl := hsame
    exact ⟨.refl _ _, after, hrun, rfl⟩

theorem Setup.run_makeOutputRoot_there {disk : Disk} (hclean : setup.settings.clean = false)
    (hentry : disk.entry setup.settings.outputRoot = .ok (output, .directory)) :
    setup.makeOutputRoot.run.run disk = (.ok (), disk) := by
  have hleads : setup.settings.outputRoot.Leads [disk.tree] disk.home output [] :=
    Path.leads_of_entry (List.forall_mem_singleton.2 hentry)
  have hskip : setup.settings.clean = true → disk.pathExists setup.settings.outputRoot = false :=
    fun htrue => by simp [hclean] at htrue
  rw [Setup.run_makeOutputRoot_of_not hskip, run_workMakeDirectories,
    hleads.run_makeDirectories_there disk.over_self (Disk.fault?_of_entry hentry)]
  rfl

theorem Setup.Placed.buildByAt_twice (h : setup.Placed ready output)
    (hclean : setup.settings.clean = false)
    (hmake : setup.makeOutputRoot.run.run { home, tree } = (.ok (), ready))
    (hextension : '/' ∉ setup.settings.extension.toList) (horders : setup.Orders stages) :
    setup.buildByAt stages home (setup.buildByAt stages home tree).2 =
      setup.buildByAt stages home tree := by
  rcases hrun : stages.run { disk := ready } with ⟨result, after⟩
  obtain ⟨hconfined, again, hagain, htree⟩ := h.stages_again hextension horders hrun
  -- no more than the tree of the disk changes when the root is made
  obtain ⟨made, rfl⟩ : ∃ made, ready = { home, tree := made } := by
    have hskip : setup.settings.clean = true →
        Disk.pathExists { home, tree } setup.settings.outputRoot = false :=
      fun htrue => by simp [hclean] at htrue
    obtain ⟨made, hdisk⟩ := @DiskM.changesTree_makeDirectories setup.settings.outputRoot { home, tree }
    rw [Setup.run_makeOutputRoot_of_not hskip, run_workMakeDirectories, hdisk] at hmake
    exact ⟨made, (Prod.mk.inj hmake).2.symm⟩
  have hroot := (hconfined.keeps _).1 (Disk.follow_of_entry h.leads).2
  have hthere := @Setup.run_makeOutputRoot_there setup output { home, tree := after.disk.tree } hclean
    (@Disk.entry_of_keeps { home, tree := made } _ _ _ _ rfl hconfined.keeps h.leads hroot)
  rw [Setup.buildByAt_of_ok hmake hrun]
  simp only
  rw [Setup.buildByAt_of_ok hthere hagain, htree]

/-- Where the directories of the output root cannot all be made, what was made stays, and there is
still no output root to take away. -/
theorem Setup.Approach.again_of_error {fault : Fault} (h : setup.Approach home base names name tree)
    (hfailed : ((setup.spared (name :: (names.reverse ++ base)) tree).pave base
      (names ++ [name])).1 = .error fault) :
    let made := ((setup.spared (name :: (names.reverse ++ base)) tree).pave base
      (names ++ [name])).2
    setup.Approach home base names name made ∧
      setup.spared (name :: (names.reverse ++ base)) made = made ∧
      (setup.settings.clean = true → made.Open (name :: (names.reverse ++ base))) := by
  intro made
  have hdir := h.leads.found _ (List.mem_singleton_self _)
  have hgrows : Grows _ made := FileTree.grows_pave hdir
  have hnone : setup.settings.clean = true → made.find? (name :: (names.reverse ++ base)) = none := by
    intro hclean
    have hspared : (setup.spared (name :: (names.reverse ++ base)) tree).find?
        (name :: (names.reverse ++ base)) = none := by
      rw [Setup.spared, if_pos hclean, FileTree.find?_erase_of_suffix (List.suffix_refl _)]
    rcases FileTree.find?_pave (names ++ [name]) hdir (name :: (names.reverse ++ base)) with
      hsame | ⟨-, -, hmade⟩
    · exact hsame.trans hspared
    · -- with the output root there, its directories would have been made
      have hagain := FileTree.pave_again hdir (.refl made)
      rw [FileTree.pave_of_reach_ok (FileTree.reach_of_find? (by simpa using hmade)), hfailed] at hagain
      cases (Prod.mk.inj hagain).1
  have hspared : setup.spared (name :: (names.reverse ++ base)) made = made := by
    unfold Setup.spared
    split
    · next hclean => exact FileTree.erase_of_find?_none (by simp) (hnone hclean)
    · rfl
  refine ⟨⟨?_, ?_⟩, hspared, fun hclean => .inl (hnone hclean)⟩
  · rw [hspared]
    exact h.leads.mono fun other hother => ⟨_, List.mem_singleton_self _,
      List.mem_singleton.1 hother ▸ hgrows.keeps⟩
  · exact h.along_spared.imp fun loc hlink => hlink.pave hdir

theorem Setup.Approach.makeOutputRoot_again (h : setup.Approach home base names name tree)
    (hmake : setup.makeOutputRoot.run.run { home, tree } = (.error failure, ready)) :
    setup.makeOutputRoot.run.run { home, tree := ready.tree } = (.error failure, ready) := by
  have hunchanged : ready = { home, tree } →
      setup.makeOutputRoot.run.run { home, tree := ready.tree } = (.error failure, ready) := by
    rintro rfl
    exact hmake
  cases hfault : setup.settings.outputRoot.fault? with
  | some fault =>
    rw [h.run_of_fault hfault] at hmake
    exact hunchanged (Prod.mk.inj hmake).2.symm
  | none =>
    by_cases hopen : setup.settings.clean = true → tree.Open (name :: (names.reverse ++ base))
    · rw [h.run_makeOutputRoot hfault hopen] at hmake
      obtain ⟨hfailed, rfl⟩ := Prod.mk.inj hmake
      obtain ⟨fault, hpave⟩ : ∃ fault, ((setup.spared (name :: (names.reverse ++ base)) tree).pave
          base (names ++ [name])).1 = .error fault := by
        cases hresult : ((setup.spared (name :: (names.reverse ++ base)) tree).pave
            base (names ++ [name])).1 with
        | error fault => exact ⟨fault, rfl⟩
        | ok =>
          rw [hresult] at hfailed
          cases hfailed
      obtain ⟨happroach, hspared, hopen'⟩ := h.again_of_error hpave
      have hdir := h.leads.found _ (List.mem_singleton_self _)
      rw [happroach.run_makeOutputRoot hfault hopen', hspared, FileTree.pave_again hdir (.refl _)]
      exact Prod.ext hfailed rfl
    · obtain ⟨hclean, hnot⟩ := Classical.not_imp.1 hopen
      obtain ⟨content, hfile⟩ : ∃ content, tree.find? (name :: (names.reverse ++ base)) =
          some (.file content) :=
        (h.plain.last.free fun hfound => hnot (.inr hfound)).resolve_left fun hnone =>
          hnot (.inl hnone)
      obtain ⟨failure', hrun⟩ := h.exists_run_of_file hclean hfile
      rw [hrun] at hmake
      exact hunchanged (Prod.mk.inj hmake).2.symm

theorem Setup.Approach.cleanStart (h : setup.Approach home base names name tree)
    (hclean : setup.settings.clean = true)
    (hmake : setup.makeOutputRoot.run.run { home, tree } = (.ok (), ready)) :
    setup.CleanStart home base names name tree where
  toApproach := h
  clean := hclean
  found := by
    obtain ⟨hfault, hopen, -⟩ := h.of_ok hmake
    exact (hopen hclean).imp_right fun hfound => h.entry_whole hfault hfound

/-- What a build left in its output root is no hindrance for a clean build to start there, and is
all that is new, but for the directories on the way to the root. -/
theorem Setup.CleanStart.again (h : setup.CleanStart home base names name tree)
    (hok : (setup.emptied base names name tree).1 = .ok ())
    (hconfined : Confined (name :: (names.reverse ++ base)) (setup.emptied base names name tree).2
      after) :
    setup.CleanStart home base names name after ∧ Setup.SameBeside base names name after tree := by
  have hpassed : ∀ {loc}, Passed base (names ++ [name]) loc → after.find? loc = some .directory :=
    fun hloc => (hconfined.keeps _).1 (h.find?_emptied_passed hok hloc)
  have herase : (after.erase (name :: (names.reverse ++ base))).Keeps
      (tree.erase (name :: (names.reverse ++ base))) := by
    intro loc
    rw [FileTree.find?_erase (by simp), FileTree.find?_erase (by simp)]
    split
    · exact ⟨nofun, fun _ => nofun⟩
    · next hloc =>
      rw [hconfined.outside hloc]
      rcases h.find?_emptied hloc with hsame | ⟨-, hnone, -⟩
      · simp [hsame]
      · simp [hnone]
  refine ⟨⟨⟨?_, ?_⟩, h.clean, .inr ?_⟩, fun loc hloc => ?_⟩
  · rw [Setup.spared, if_pos h.clean]
    have hleads := h.leads
    rw [h.spared_eq] at hleads
    exact hleads.mono fun other hother => ⟨_, List.mem_singleton_self _,
      List.mem_singleton.1 hother ▸ herase⟩
  · refine along_of_forall fun first hne hfirst target hlink => ?_
    rw [hpassed ⟨first, hne, hfirst, rfl⟩] at hlink
    cases hlink
  · have hthere : Passed base (names ++ [name]) (name :: (names.reverse ++ base)) :=
      ⟨names ++ [name], by simp, List.prefix_refl _, by simp⟩
    exact @Disk.entry_of_keeps { home, tree := (setup.emptied base names name tree).2 } _ _ _ _ rfl
      hconfined.keeps (h.entry_emptied hok) (hpassed hthere)
  · rw [hconfined.outside hloc]
    rcases h.find?_emptied hloc with hsame | ⟨hway, hnone, hmade⟩
    · exact .inl hsame
    · refine .inr ⟨(passed_concat hway).resolve_right fun heq => ?_, .inr ?_, .inl hnone⟩
      · exact hloc (heq ▸ List.suffix_refl _)
      · exact (hconfined.outside hloc).trans hmade

theorem Setup.CleanStart.buildByAt_twice (h : setup.CleanStart home base names name tree)
    (hmake : setup.makeOutputRoot.run.run { home, tree } = (.ok (), ready))
    (hplaced : setup.Placed ready output) (hextension : '/' ∉ setup.settings.extension.toList)
    (horders : setup.Orders stages) :
    setup.buildByAt stages home (setup.buildByAt stages home tree).2 =
      setup.buildByAt stages home tree := by
  have hemptied := h.run_makeOutputRoot
  rw [hmake] at hemptied
  obtain ⟨hresult, rfl⟩ := Prod.mk.inj hemptied
  have hok : (setup.emptied base names name tree).1 = .ok () := by
    cases hcases : (setup.emptied base names name tree).1 with
    | ok => rfl
    | error fault =>
      rw [hcases] at hresult
      cases hresult
  obtain rfl : name :: (names.reverse ++ base) = output := by
    have hleads := hplaced.leads
    rw [h.entry_emptied hok] at hleads
    cases hleads
    rfl
  rcases hrun : stages.run { disk := { home, tree := (setup.emptied base names name tree).2 } } with
    ⟨result, after⟩
  obtain ⟨hconfined, -⟩ := hplaced.stages_again hextension horders hrun
  obtain ⟨hagain, hsame⟩ := h.again hok hconfined
  obtain ⟨heq, -, htree⟩ := hsame.emptied_congr hagain h
  have hafter : (setup.buildByAt stages home tree).2 = after.disk.tree := by
    rw [Setup.buildByAt_of_ok hmake hrun]
  refine Setup.buildByAt_congr ?_
  rw [hafter, hagain.run_makeOutputRoot, h.run_makeOutputRoot, heq, htree (heq.trans hok)]

/-- A build done once more, on what it left, comes to the same result and leaves the tree as it is,
whether it had failures or not. -/
theorem Setup.Returns.buildByAt_again (h : setup.Returns home tree)
    (hplaced : ∀ {ready}, setup.makeOutputRoot.run.run { home, tree } = (.ok (), ready) →
      ∃ output, setup.Placed ready output)
    (hextension : '/' ∉ setup.settings.extension.toList) (horders : setup.Orders stages) :
    setup.buildByAt stages home (setup.buildByAt stages home tree).2 =
      setup.buildByAt stages home tree := by
  rcases hmake : setup.makeOutputRoot.run.run { home, tree } with ⟨result, ready⟩
  cases result with
  | error failure =>
    cases h with
    | made _ run =>
      rw [hmake] at run
      cases run
    | approach happroach =>
      rw [Setup.buildByAt_of_error hmake]
      exact Setup.buildByAt_of_error (happroach.makeOutputRoot_again hmake)
  | ok =>
    obtain ⟨output, hplaced⟩ := hplaced hmake
    cases hclean : setup.settings.clean with
    | false => exact hplaced.buildByAt_twice hclean hmake hextension horders
    | true =>
      cases h with
      | made clean =>
        rw [hclean] at clean
        cases clean
      | approach happroach =>
        exact (happroach.cleanStart hclean hmake).buildByAt_twice hmake hplaced hextension horders

end Again

section Stale

theorem approach_staleTree : (cleanSetup "/packages").Approach [] [] [] "packages" staleTree where
  leads := ⟨fun ground hground => List.mem_singleton.1 hground ▸ FileTree.root _, [], by decide,
    fun _ _ => ⟨_, .stop⟩⟩
  plain := ⟨noLink_of_all (by decide +kernel) _, trivial⟩

theorem placed_staleTree {ready : Disk}
    (hmake : (cleanSetup "/packages").makeOutputRoot.run.run { home := [], tree := staleTree } =
      (.ok (), ready)) :
    (cleanSetup "/packages").Placed ready ["packages"] := by
  obtain rfl : ((cleanSetup "/packages").makeOutputRoot.run.run
      { home := [], tree := staleTree }).2 = ready := by rw [hmake]
  refine ⟨by decide, by decide +kernel, fun _ => noLink_of_all (by decide +kernel) _,
    fun {source} hsource => ?_⟩
  have hsdk : (((cleanSetup "/packages").makeOutputRoot.run.run
      { home := [], tree := staleTree }).2).entry (cleanSetup "/packages").settings.sourceRoot =
        .ok (["sdk"], .directory) := by decide +kernel
  rw [hsdk] at hsource
  cases hsource
  exact ⟨by decide, by decide, fun _ => noLink_of_all (by decide +kernel) _⟩

/-- Units of both stages in reverse, with a core that fails. -/
theorem Setup.buildByAt_again_staleTree :
    (cleanSetup "/packages").Returns [] staleTree ∧
    (cleanSetup "/packages").Orders ((cleanSetup "/packages").runMixed List.reverse) ∧
    (cleanSetup "/packages").buildByAt ((cleanSetup "/packages").runMixed List.reverse) []
        ((cleanSetup "/packages").buildByAt ((cleanSetup "/packages").runMixed List.reverse) []
          staleTree).2 =
      (cleanSetup "/packages").buildByAt ((cleanSetup "/packages").runMixed List.reverse) []
        staleTree :=
  have hreturns := .approach approach_staleTree
  have horders := .mixed List.reverse_perm
  ⟨hreturns, horders, Setup.Returns.buildByAt_again hreturns
    (fun hmake => ⟨_, placed_staleTree hmake⟩) (by decide) horders⟩

def barredTree : FileTree := sdkTree.plant ["f"] (.file ByteArray.empty)

def barredSetup : Setup := setupOf { webSettings with outputRoot := ⟨"/n/../f/x"⟩ }

/-- Making the directories of a path that turns back changes what the path names. A clean build then
takes away what it left in place before, and one that fails can fail at another file. -/
theorem buildByAt_again_differs :
    (∀ loc, staleTree.NoLink loc) ∧ (∀ loc, barredTree.NoLink loc) ∧
    ((cleanSetup "/packages/x/..").buildByAt (cleanSetup "/packages/x/..").runStages []
      staleTree).2.find? ["old.ts", "packages"] = some (.file ByteArray.empty) ∧
    ((cleanSetup "/packages/x/..").buildByAt (cleanSetup "/packages/x/..").runStages []
      ((cleanSetup "/packages/x/..").buildByAt (cleanSetup "/packages/x/..").runStages []
        staleTree).2).2.find? ["old.ts", "packages"] = none ∧
    failureOf (barredSetup.buildByAt barredSetup.runStages [] barredTree).1 =
      some (.io ⟨"/n/../f/x"⟩ .alreadyExists) ∧
    failureOf (barredSetup.buildByAt barredSetup.runStages []
      (barredSetup.buildByAt barredSetup.runStages [] barredTree).2).1 =
      some (.io ⟨"/n/../f/x"⟩ .notDirectory) := by
  refine ⟨noLink_of_all (by decide +kernel), noLink_of_all (by decide +kernel), ?_, ?_, ?_, ?_⟩
  · decide +kernel
  · decide +kernel
  · decide +kernel
  · decide +kernel

end Stale

end Unbundle.Build
