import Unbundle.Proofs.Build.Opened

/-! The order of the units does not matter. A unit that is run behind others comes to what it comes
to alone, and what the units leave together is what each of them leaves alone, put together. -/

namespace Unbundle.Build
open Unbundle.Files
open Unbundle.Files.FileTree (Open)

section Outcomes
variable {unit : WorkUnit} {plan : Plan} {outcome : WorkUnit → Outcome}
  {order units : List WorkUnit}

theorem find?_map_outcome (hunit : ∀ unit, (outcome unit).unit = unit) :
    (order.map outcome).find? (·.unit = unit) = if unit ∈ order then some (outcome unit) else none := by
  induction order with
  | nil => rfl
  | cons first order ih =>
    rw [List.map_cons, List.find?_cons]
    by_cases heq : first = unit
    · subst heq
      simp [hunit]
    · simp [hunit, heq, ih, Ne.symm heq]

theorem collect_congr (hunit : ∀ unit, (outcome unit).unit = unit) {order' : List WorkUnit}
    (hmem : ∀ unit, unit ∈ order ↔ unit ∈ order') :
    collect units (order.map outcome) = collect units (order'.map outcome) := by
  have hfind : (fun unit => (order.map outcome).find? (·.unit = unit)) =
      fun unit => (order'.map outcome).find? (·.unit = unit) := by
    funext unit
    rw [find?_map_outcome hunit, find?_map_outcome hunit]
    exact if_congr (hmem unit) rfl rfl
  unfold collect
  rw [hfind]

theorem report_congr (hunit : ∀ unit, (outcome unit).unit = unit) {order' : List WorkUnit}
    (hmem : ∀ unit, unit ∈ order ↔ unit ∈ order') :
    plan.report (order.map outcome) = plan.report (order'.map outcome) := by
  have hstage : ∀ stage units, stageReport stage units (order.map outcome) =
      stageReport stage units (order'.map outcome) := by
    intro stage units
    cases units with
    | ok units => exact collect_congr hunit hmem
    | error failure => rfl
  rw [Plan.report, Plan.report, hstage, hstage]

end Outcomes

namespace Workplace

/-- What a unit comes to when it is run alone. -/
def alone (w : Workplace) (types : Except Failure TypesPlan) (unit : WorkUnit) : Outcome × Disk :=
  (w.setup.runUnit types unit).run w.ready

/-- A unit run alone leaves something else at a location than there was. -/
def Changes (w : Workplace) (types : Except Failure TypesPlan) (unit : WorkUnit)
    (loc : Location) : Prop :=
  (w.alone types unit).2.tree.find? loc ≠ w.ready.tree.find? loc

/-- What some units left, put together: at each location what was there before, or what one of them
leaves there alone. -/
structure Merged (w : Workplace) (types : Except Failure TypesPlan) (done : List WorkUnit)
    (d : Disk) : Prop where
  underway : w.Underway d
  same : ∀ {loc}, (∀ unit ∈ done, ¬ w.Changes types unit loc) →
    d.tree.find? loc = w.ready.tree.find? loc
  changed : ∀ {loc unit}, unit ∈ done → w.Changes types unit loc →
    d.tree.find? loc = (w.alone types unit).2.tree.find? loc

/-- Units that can be run one behind the other without getting in each other's way. -/
structure Independent (w : Workplace) (types : Except Failure TypesPlan)
    (units : List WorkUnit) : Prop where
  unlinked : w.Unlinked
  concurs : ∀ unit ∈ units, w.Concurs (w.Deeds types unit) (w.setup.runUnit types unit)
  files : ∀ unit ∈ units, ∀ other ∈ units, unit ≠ other → ∀ names,
    (w.foot types unit).files names → ¬ (w.foot types other).files names
  dirs : ∀ unit ∈ units, ∀ other ∈ units, unit ≠ other → ∀ names,
    (w.foot types unit).files names → ¬ (w.foot types other).dirs names

section Merged
variable {w : Workplace} {types : Except Failure TypesPlan} {unit other : WorkUnit}
  {units done order : List WorkUnit} {d e : Disk} {loc : Location} {names : List String}

theorem Independent.changes_cases (h : w.Independent types units) (hunit : unit ∈ units)
    (hchanges : w.Changes types unit loc) :
    (∃ names, loc = names.reverse ++ w.output ∧ (w.foot types unit).dirs names ∧
      w.ready.tree.Open loc ∧ (w.alone types unit).2.tree.find? loc = some .directory) ∨
    ∃ names, loc = names.reverse ++ w.output ∧ (w.foot types unit).files names := by
  cases ((h.concurs unit hunit).marks w.underway_ready).marked loc with
  | same first => exact absurd first hchanges
  | @dir names eq within first _ first' => exact .inl ⟨names, eq, within, first, first'⟩
  | @file names _ eq within => exact .inr ⟨names, eq, within⟩

theorem Independent.changes_agree (h : w.Independent types units) (hunit : unit ∈ units)
    (hother : other ∈ units) (hchanges : w.Changes types unit loc)
    (hchanges' : w.Changes types other loc) :
    (w.alone types unit).2.tree.find? loc = (w.alone types other).2.tree.find? loc := by
  by_cases hne : unit = other
  · rw [hne]
  rcases h.changes_cases hunit hchanges with ⟨names, rfl, hdirs, -, hmade⟩ | ⟨names, rfl, hfiles⟩
  · rcases h.changes_cases hother hchanges' with
      ⟨names', heq, -, -, hmade'⟩ | ⟨names', heq, hfiles'⟩
    · rw [hmade, hmade']
    · rw [List.append_left_inj, List.reverse_inj] at heq
      exact absurd (heq ▸ hdirs) (h.dirs other hother unit hunit (Ne.symm hne) names' hfiles')
  · rcases h.changes_cases hother hchanges' with
      ⟨names', heq, hdirs', -, -⟩ | ⟨names', heq, hfiles'⟩
    · rw [List.append_left_inj, List.reverse_inj] at heq
      exact absurd (heq ▸ hdirs') (h.dirs unit hunit other hother hne names hfiles)
    · rw [List.append_left_inj, List.reverse_inj] at heq
      exact absurd (heq ▸ hfiles') (h.files unit hunit other hother hne names hfiles)

theorem merged_ready (w : Workplace) (types : Except Failure TypesPlan) :
    w.Merged types [] w.ready := ⟨w.underway_ready, fun _ => rfl, nofun⟩

theorem Merged.cases (h : w.Merged types done d) (loc : Location) :
    ((∀ unit ∈ done, ¬ w.Changes types unit loc) ∧
      d.tree.find? loc = w.ready.tree.find? loc) ∨
    ∃ unit ∈ done, w.Changes types unit loc ∧
      d.tree.find? loc = (w.alone types unit).2.tree.find? loc := by
  by_cases hany : ∃ unit ∈ done, w.Changes types unit loc
  · obtain ⟨unit, hmem, hchanges⟩ := hany
    exact .inr ⟨unit, hmem, hchanges, h.changed hmem hchanges⟩
  · have hnone : ∀ unit ∈ done, ¬ w.Changes types unit loc := fun unit hmem hchanges =>
      hany ⟨unit, hmem, hchanges⟩
    exact .inl ⟨hnone, h.same hnone⟩

theorem Merged.twins (h : w.Merged types done d) (hind : w.Independent types units)
    (hdone : ∀ unit ∈ done, unit ∈ units) (hunit : unit ∈ units) (hnew : unit ∉ done) :
    w.Twins (w.Deeds types unit) w.ready d where
  underway := w.underway_ready
  underway' := h.underway
  reads := .inl hind.unlinked
  meets := by
    have hne : ∀ other ∈ done, other ≠ unit := fun other hother heq => hnew (heq ▸ hother)
    refine ⟨fun names hnames => ?_, fun names hnames => ?_⟩
    · rcases h.cases (names.reverse ++ w.output) with ⟨-, hsame⟩ | ⟨other, hother, hchanges, heq⟩
      · rw [Open, Open, hsame]
      · rcases hind.changes_cases (hdone other hother) hchanges with
          ⟨-, -, -, hopen, hmade⟩ | ⟨names', hloc, hfiles⟩
        · rw [hmade] at heq
          exact iff_of_true hopen (.inr heq)
        · rw [List.append_left_inj, List.reverse_inj] at hloc
          subst hloc
          exact absurd hnames (hind.dirs other (hdone other hother) unit hunit (hne other hother)
            names hfiles)
    · rcases h.cases (names.reverse ++ w.output) with ⟨-, hsame⟩ | ⟨other, hother, hchanges, heq⟩
      · exact hsame.symm
      · rcases hind.changes_cases (hdone other hother) hchanges with
          ⟨names', hloc, hdirs, -, -⟩ | ⟨names', hloc, hfiles⟩
        · rw [List.append_left_inj, List.reverse_inj] at hloc
          subst hloc
          exact absurd hdirs (hind.dirs unit hunit other (hdone other hother)
            (Ne.symm (hne other hother)) names hnames)
        · rw [List.append_left_inj, List.reverse_inj] at hloc
          subst hloc
          exact absurd hnames (hind.files other (hdone other hother) unit hunit (hne other hother)
            names hfiles)

/-- A further unit comes to what it comes to alone, and what it leaves is put to the rest. -/
theorem Merged.runUnit (h : w.Merged types done d) (hind : w.Independent types units)
    (hdone : ∀ unit ∈ done, unit ∈ units) (hunit : unit ∈ units) (hnew : unit ∉ done) :
    ((w.setup.runUnit types unit).run d).1 = (w.alone types unit).1 ∧
    w.Merged types (unit :: done) ((w.setup.runUnit types unit).run d).2 := by
  have htwins := h.twins hind hdone hunit hnew
  obtain ⟨hresult, hmarks⟩ := hind.concurs unit hunit _ _ htwins
  have hstays : ∀ loc, ¬ w.Changes types unit loc →
      ((w.setup.runUnit types unit).run d).2.tree.find? loc = d.tree.find? loc := by
    intro loc hchanges
    have hsame : (w.alone types unit).2.tree.find? loc = w.ready.tree.find? loc :=
      not_not.1 hchanges
    cases hmarks.marked loc with
    | same _ second => exact second
    | dir _ _ _ _ first' second' =>
      have hthere : w.ready.tree.find? loc = some .directory := hsame.symm.trans first'
      exact second'.trans ((h.underway.keeps loc).1 hthere).symm
    | file eq within _ _ first' second' =>
      subst eq
      have hthere := hsame.symm.trans first'
      exact second'.trans ((htwins.meets.files _ within).symm.trans hthere).symm
  have hleaves : ∀ loc, w.Changes types unit loc →
      ((w.setup.runUnit types unit).run d).2.tree.find? loc =
        (w.alone types unit).2.tree.find? loc := by
    intro loc hchanges
    cases hmarks.marked loc with
    | same first => exact absurd first hchanges
    | dir _ _ _ _ first' second' => exact second'.trans first'.symm
    | file _ _ _ _ first' second' => exact second'.trans first'.symm
  refine ⟨hresult.symm, (hind.concurs unit hunit).underway h.underway, fun hnone => ?_,
    fun hmem hchanges => ?_⟩
  · obtain ⟨hown, hrest⟩ := List.forall_mem_cons.1 hnone
    exact (hstays _ hown).trans (h.same hrest)
  · rename_i loc other
    by_cases hown : w.Changes types unit loc
    · have hother : other ∈ units := (List.mem_cons.1 hmem).elim (fun heq => heq ▸ hunit) (hdone _)
      exact (hleaves loc hown).trans (hind.changes_agree hunit hother hown hchanges)
    · rcases List.mem_cons.1 hmem with rfl | hmem
      · exact absurd hchanges hown
      · exact (hstays loc hown).trans (h.changed hmem hchanges)

theorem Merged.runUnits (h : w.Merged types done d) (hind : w.Independent types units)
    (hdone : ∀ unit ∈ done, unit ∈ units) (horder : ∀ unit ∈ order, unit ∈ units)
    (hnodup : order.Nodup) (hnew : ∀ unit ∈ order, unit ∉ done) :
    ((w.setup.runUnits types order).run d).1 = order.map (fun unit => (w.alone types unit).1) ∧
    ∃ all, (∀ unit, unit ∈ all ↔ unit ∈ order ∨ unit ∈ done) ∧
      w.Merged types all ((w.setup.runUnits types order).run d).2 := by
  induction order generalizing done d with
  | nil => exact ⟨rfl, done, by simp, h⟩
  | cons unit order ih =>
    obtain ⟨hunit, horder⟩ := List.forall_mem_cons.1 horder
    obtain ⟨hfresh, hnew⟩ := List.forall_mem_cons.1 hnew
    obtain ⟨hapart, hnodup⟩ := List.nodup_cons.1 hnodup
    obtain ⟨hresult, hmerged⟩ := h.runUnit hind hdone hunit hfresh
    obtain ⟨hresults, all, hall, hend⟩ := ih hmerged (List.forall_mem_cons.2 ⟨hunit, hdone⟩)
      horder hnodup fun other hother hmem => (List.mem_cons.1 hmem).elim
        (fun heq => hapart (heq ▸ hother)) (hnew other hother)
    rw [run_runUnits_cons, hresult, hresults]
    refine ⟨rfl, all, fun other => ?_, hend⟩
    rw [hall, List.mem_cons, List.mem_cons]
    tauto

theorem Merged.tree_eq {other : List WorkUnit} (h : w.Merged types done d)
    (h' : w.Merged types other e) (hmem : ∀ unit, unit ∈ done ↔ unit ∈ other) :
    d.tree = e.tree := by
  refine FileTree.ext fun loc => ?_
  rcases h.cases loc with ⟨hnone, hsame⟩ | ⟨unit, hunit, hchanges, heq⟩
  · rw [hsame, h'.same fun unit hunit => hnone unit ((hmem unit).2 hunit)]
  · rw [heq, h'.changed ((hmem unit).1 hunit) hchanges]

/-- Two runs of the same units leave the same tree and come to the same outcomes. -/
theorem Independent.run_perm (hind : w.Independent types units) (hnodup : units.Nodup)
    (horder : order.Perm units) :
    ((w.setup.runUnits types order).run w.ready).1 =
      order.map (fun unit => (w.alone types unit).1) ∧
    ((w.setup.runUnits types order).run w.ready).2.tree =
      ((w.setup.runUnits types units).run w.ready).2.tree := by
  have hready := w.merged_ready types
  obtain ⟨hresults, all, hall, hend⟩ := hready.runUnits hind nofun
    (fun unit hunit => horder.mem_iff.1 hunit) (horder.nodup_iff.2 hnodup) (by simp)
  obtain ⟨-, all', hall', hend'⟩ := hready.runUnits hind nofun (fun _ => id) hnodup (by simp)
  refine ⟨hresults, hend.tree_eq hend' fun unit => ?_⟩
  rw [hall, hall', horder.mem_iff]

end Merged

section Plain
variable {w : Workplace} {memory : Memory} {order order' : List WorkUnit} {d : Disk}
  {stages stages' : StateM Session (Plan × List Outcome)}

theorem Plain.independent (plain : w.Plain (w.plan memory).types) (hcore : ¬ w.Discovered coreName)
    (hextension : '/' ∉ w.setup.settings.extension.toList) (hlinks : w.Unlinked)
    (hmemory : memory.Named) : w.Independent (w.plan memory).types (w.plan memory).units := by
  have tidy : w.Tidy := ⟨hextension, hcore, fun hmodule hfind => by
    rw [plain.entry hmodule] at hfind
    cases hfind⟩
  have hstaged := w.staged hmemory hextension
  exact {
    unlinked := hlinks
    concurs := fun unit hunit => hstaged.concurs hextension hunit
    files := fun unit hunit other hother hne names => tidy.files_disjoint hne
      (hstaged.suits unit hunit) (hstaged.suits other hother)
    dirs := fun unit hunit other hother hne names => plain.files_dirs_disjoint tidy hstaged.named
      hne (hstaged.suits unit hunit) (hstaged.suits other hother) }

theorem Plain.runUnits_congr (plain : w.Plain (w.plan memory).types)
    (hcore : ¬ w.Discovered coreName) (hextension : '/' ∉ w.setup.settings.extension.toList)
    (hlinks : w.Unlinked) (hmemory : memory.Named) (horder : order.Perm (w.plan memory).units)
    (horder' : order'.Perm (w.plan memory).units) :
    ((w.setup.runUnits (w.plan memory).types order).run w.ready).2.tree =
      ((w.setup.runUnits (w.plan memory).types order').run w.ready).2.tree ∧
    (w.plan memory).report ((w.setup.runUnits (w.plan memory).types order).run w.ready).1 =
      (w.plan memory).report ((w.setup.runUnits (w.plan memory).types order').run w.ready).1 ∧
    ((w.setup.runUnits (w.plan memory).types order).run w.ready).1.Perm
      ((w.setup.runUnits (w.plan memory).types order').run w.ready).1 := by
  have hstaged := w.staged hmemory hextension
  have hind := plain.independent hcore hextension hlinks hmemory
  obtain ⟨hresults, htree⟩ := hind.run_perm hstaged.nodup horder
  obtain ⟨hresults', htree'⟩ := hind.run_perm hstaged.nodup horder'
  refine ⟨htree.trans htree'.symm, ?_, ?_⟩
  · rw [hresults, hresults']
    exact report_congr (fun _ => unit_runUnit) fun unit => by rw [horder.mem_iff, horder'.mem_iff]
  · rw [hresults, hresults']
    exact (horder.trans horder'.symm).map _

/-- Builds whose names are kept apart come to the same report and leave the same tree, whatever the
order is that each of them takes its units in. They announce the same packages. -/
theorem Plain.buildBy_congr (plain : w.Plain (w.plan {}).types) (hcore : ¬ w.Discovered coreName)
    (hextension : '/' ∉ w.setup.settings.extension.toList) (hlinks : w.Unlinked)
    (horders : w.setup.Orders stages) (horders' : w.setup.Orders stages')
    (hmake : w.setup.makeOutputRoot.run.run d = (.ok (), w.ready)) :
    ∃ result after result' after',
      (w.setup.buildBy stages).run.run { disk := d } = (.ok result, after) ∧
      (w.setup.buildBy stages').run.run { disk := d } = (.ok result', after') ∧
      result.report = result'.report ∧ result.announced.Perm result'.announced ∧
      after.disk.tree = after'.disk.tree := by
  have hsteady := w.steady_ready
  obtain ⟨units, htakes⟩ := exists_takes hsteady rfl Memory.named_empty hextension horders
  obtain ⟨units', htakes'⟩ := exists_takes hsteady rfl Memory.named_empty hextension horders'
  obtain ⟨memory, hrun⟩ := htakes.run rfl
  obtain ⟨memory', hrun'⟩ := htakes'.run rfl
  have hbuild := @Setup.run_buildBy_of_stages w.setup { disk := d } _ stages _ _ _ hmake hrun
  have hbuild' := @Setup.run_buildBy_of_stages w.setup { disk := d } _ stages' _ _ _ hmake hrun'
  obtain ⟨htree, hreport, houtcomes⟩ := plain.runUnits_congr hcore hextension hlinks
    Memory.named_empty htakes.perm htakes'.perm
  exact ⟨_, _, _, _, hbuild, hbuild', hreport, houtcomes.flatMap_right _, htree⟩

theorem plain_of_all (hextension : '/' ∉ w.setup.settings.extension.toList)
    (h : (w.ready.tree.entries.toList.all fun entry =>
      (entry.1.head? != some typesName || entry.1.length ≤ w.source.length + 1) &&
        (entry.2.isDirectory || entry.1.head?.any fun name => name.toList.contains '.')) = true) :
    w.Plain (w.plan {}).types := by
  have hall := @entry_of_all w.ready.tree (fun loc entry =>
    (loc.head? != some typesName || loc.length ≤ w.source.length + 1) &&
      (entry.isDirectory || loc.head?.any fun name => name.toList.contains '.')) h
  have hnone : ∀ names : List String, names ≠ [] →
      w.ready.tree.find? (typesName :: (names ++ w.source)) = none := by
    intro names hne
    have hpos := List.length_pos_of_ne_nil hne
    cases hfind : w.ready.tree.find? (typesName :: (names ++ w.source)) with
    | none => rfl
    | some entry =>
      have hentry := (Bool.and_eq_true_iff.1 (hall hfind)).1
      simp only [List.head?_cons, bne_self_eq_false, Bool.false_or, decide_eq_true_eq,
        List.length_cons, List.length_append] at hentry
      omega
  refine ⟨fun _ => hnone [_] (by simp), fun _ => hnone [_, _] (by simp), ?_⟩
  intro module plan version content _ hplan hversion hfind
  have hnamed := (w.staged Memory.named_empty hextension).named plan hplan
  have hdot := not_dot_of_isIdentifier (hnamed.isIdentifier_of_mem_versionsOf hversion)
  have hentry := (Bool.and_eq_true_iff.1 (hall hfind)).2
  simp [Entry.isDirectory, hdot] at hentry

end Plain

/-- A build whose names are kept apart comes to the same report and leaves the same tree in whatever
order its units are run. -/
theorem Plain.build_any_order {w : Workplace} {start : Session}
    (plain : w.Plain (w.plan start.memory).types) (hcore : ¬ w.Discovered coreName)
    (hextension : '/' ∉ w.setup.settings.extension.toList) (hlinks : w.Unlinked)
    (hmemory : start.memory.Named)
    (hmake : w.setup.makeOutputRoot.run.run start.disk = (.ok (), w.ready)) :
    ∃ result after, w.setup.build.run.run start = (.ok result, after) ∧
      ∀ order : List WorkUnit, order.Perm (w.plan start.memory).units →
        ((w.setup.runUnits (w.plan start.memory).types order).run w.ready).2.tree =
          after.disk.tree ∧
        (w.plan start.memory).report
          ((w.setup.runUnits (w.plan start.memory).types order).run w.ready).1 = result.report := by
  have hstaged := w.staged hmemory hextension
  refine ⟨_, _, w.run_build hmake, fun order horder => ?_⟩
  obtain ⟨htree, hreport, -⟩ :=
    plain.runUnits_congr hcore hextension hlinks hmemory horder (.refl _)
  rw [hstaged.run] at htree hreport
  exact ⟨htree, hreport⟩

section Web

theorem unlinked_webPlace : webPlace.Unlinked := by
  intro loc _ target hlink
  have hall := @entry_of_all (readyOf webSettings (diskOf webFiles)).tree
    (fun _ entry => !isLink entry) (by decide +kernel) loc _ hlink
  cases hall

theorem plain_webPlace : webPlace.Plain (webPlace.plan {}).types :=
  plain_of_all (by decide) (by decide +kernel)

/-- The build of `web` in any order. -/
theorem Plain.build_any_order_web :
    webPlace.Plain (webPlace.plan {}).types ∧ ¬ webPlace.Discovered coreName ∧
    '/' ∉ webPlace.setup.settings.extension.toList ∧ webPlace.Unlinked ∧ ({} : Memory).Named ∧
    webPlace.setup.makeOutputRoot.run.run (diskOf webFiles) = (.ok (), webPlace.ready) ∧
    ∃ result after, webPlace.setup.build.run.run { disk := diskOf webFiles } = (.ok result, after) ∧
      ∀ order : List WorkUnit, order.Perm (webPlace.plan {}).units →
        ((webPlace.setup.runUnits (webPlace.plan {}).types order).run webPlace.ready).2.tree =
          after.disk.tree ∧
        (webPlace.plan {}).report
          ((webPlace.setup.runUnits (webPlace.plan {}).types order).run webPlace.ready).1 =
            result.report :=
  ⟨plain_webPlace, tidy_webPlace.core, tidy_webPlace.extension, unlinked_webPlace,
    Memory.named_empty, make_webPlace,
    @Plain.build_any_order webPlace { disk := diskOf webFiles } plain_webPlace tidy_webPlace.core
      tidy_webPlace.extension unlinked_webPlace Memory.named_empty make_webPlace⟩

end Web

end Workplace

end Unbundle.Build
