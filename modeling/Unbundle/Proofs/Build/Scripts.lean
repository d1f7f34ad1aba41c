import Unbundle.Proofs.Build.Workplace

/-! Work by a script. On disks that are read the same, work does one list of deeds, and when they
are all done it comes to one result. Work that is put together from such work goes by a script as
well. -/

namespace Unbundle.Build
open Unbundle.Files

/-- Deeds, and what work comes to when they are all done. -/
structure Script (α : Type) where
  deeds : List Deed
  result : Except Failure α

def Script.work {α : Type} (root : Files.Path) (script : Script α) : Work α := do
  perform root script.deeds
  liftExcept script.result

theorem Script.run_work {α : Type} {root : Files.Path} {script : Script α} {d : Disk} :
    (script.work root).run.run d =
      match (perform root script.deeds).run.run d with
      | (.ok (), d') => (script.result, d')
      | (.error failure, d') => (.error failure, d') := by
  unfold Script.work
  rw [run_bind]
  rcases (perform root script.deeds).run.run d with ⟨result, d'⟩
  cases result with
  | error failure => rfl
  | ok =>
    cases script.result with
    | error failure => rfl
    | ok a => rfl

namespace Workplace

/-- On some disks the work goes by a script, whose deeds are all of one kind. -/
structure Plays {α : Type} (w : Workplace) (made : List (List String)) (kind : Deed → Prop)
    (among : Disk → Prop) (work : Work α) (script : Script α) : Prop where
  deeds : ∀ deed ∈ script.deeds, deed.Named ∧ kind deed
  founded : Founded made script.deeds
  run : ∀ {d}, among d →
    work.run.run d = (script.work w.setup.settings.outputRoot).run.run d

/-- On disks where the units read the same the work goes by a script. What it gives satisfies `Q`,
together with the deeds. -/
def Scripted {α : Type} (w : Workplace) (made : List (List String)) (kind : Deed → Prop)
    (work : Work α) (Q : α → List Deed → Prop) : Prop :=
  ∀ among, w.Steady made among → ∃ script : Script α, w.Plays made kind among work script ∧
    ∀ a, script.result = .ok a → Q a script.deeds

section Rules
variable {α β : Type} {w : Workplace} {made : List (List String)} {kind : Deed → Prop}
  {work : Work α} {Q : α → List Deed → Prop} {P : β → List Deed → Prop} {among : Disk → Prop}
  {deed : Deed} {deeds : List Deed}

theorem Scripted.imp {Q' : α → List Deed → Prop} (h : w.Scripted made kind work Q)
    (hQ : ∀ a deeds, Q a deeds → Q' a deeds) : w.Scripted made kind work Q' := by
  intro among hsteady
  obtain ⟨script, hplays, hpost⟩ := h among hsteady
  exact ⟨script, hplays, fun a ha => hQ a _ (hpost a ha)⟩

theorem Scripted.kind_imp {wide : Deed → Prop} (h : w.Scripted made kind work Q)
    (hkind : ∀ deed, deed.Named → kind deed → wide deed) : w.Scripted made wide work Q := by
  intro among hsteady
  obtain ⟨script, hplays, hpost⟩ := h among hsteady
  refine ⟨script, ⟨fun deed hdeed => ?_, hplays.founded, hplays.run⟩, hpost⟩
  obtain ⟨hnamed, hdeed⟩ := hplays.deeds deed hdeed
  exact ⟨hnamed, hkind deed hnamed hdeed⟩

theorem Scripted.pure {a : α} (h : Q a []) : w.Scripted made kind (pure a) Q :=
  fun _ _ => ⟨⟨[], .ok a⟩, ⟨by simp, trivial, fun _ => rfl⟩, fun b hb => Except.ok.inj hb ▸ h⟩

theorem Scripted.throw {failure : Failure} : w.Scripted made kind (throw failure : Work α) Q :=
  fun _ _ => ⟨⟨[], .error failure⟩, ⟨by simp, trivial, fun _ => rfl⟩, fun _ h => nomatch h⟩

theorem Scripted.look {Q' : α → Disk → Prop}
    (h : ∀ {among d e}, w.Steady made among → among d → among e →
      InStep (fun x y => x = d ∧ y = e) work Q')
    (hQ : ∀ {d a}, w.Underway d → Q' a d → Q a []) : w.Scripted made kind work Q := by
  intro among hsteady
  by_cases hany : ∃ d, among d
  · obtain ⟨d, hd⟩ := hany
    refine ⟨⟨[], (work.run.run d).1⟩, ⟨by simp, trivial, fun {e} he => ?_⟩, fun a ha => ?_⟩
    · obtain ⟨hsame, ⟨-, hend⟩, -⟩ := h hsteady hd he d e ⟨rfl, rfl⟩
      rw [Script.run_work]
      exact Prod.ext hsame.symm hend
    · obtain ⟨-, ⟨hend, -⟩, hpost⟩ := h hsteady hd hd d d ⟨rfl, rfl⟩
      have hpost := hpost a ha
      rw [hend] at hpost
      exact hQ (hsteady.underway hd) hpost
  · exact ⟨⟨[], .error (.unknownEntry ⟨""⟩)⟩, ⟨by simp, trivial, fun hd => absurd ⟨_, hd⟩ hany⟩,
      fun _ h => nomatch h⟩

def After (w : Workplace) (among : Disk → Prop) (deeds : List Deed) (d' : Disk) : Prop :=
  ∃ d, among d ∧ (perform w.setup.settings.outputRoot deeds).run.run d = (.ok (), d')

theorem Steady.after (h : w.Steady made among) (hnamed : ∀ deed ∈ deeds, deed.Named)
    (hfounded : Founded made deeds) :
    w.Steady (deeds.reverse.flatMap Deed.made ++ made) (w.After among deeds) := by
  refine ⟨?_, ?_, h.reads.imp_right fun hone => ?_⟩
  · rintro d' ⟨d, hd, hrun⟩
    have hanywhere : ∀ deed ∈ deeds, deed.Named ∧ deed.Within anywhere := fun deed hdeed =>
      ⟨hnamed deed hdeed, by cases deed <;> simp [Deed.Within, anywhere]⟩
    have hmarks := perform_marks (h.underway hd).standing hanywhere hfounded (h.has hd)
    rw [hrun] at hmarks
    exact (h.underway hd).marks hmarks
  · rintro d' ⟨d, hd, hrun⟩
    exact perform_has (h.underway hd).standing hnamed hfounded (h.has hd) hrun
  · rintro d' e' ⟨d, hd, hrun⟩ ⟨e, he, hrun'⟩
    rw [hone hd he, hrun'] at hrun
    exact (congrArg Prod.snd hrun).symm

theorem Scripted.bind {next : α → Work β} (h : w.Scripted made kind work Q)
    (hnext : ∀ a deeds made', Q a deeds → (∀ names ∈ made, names ∈ made') →
      (∀ names, .make names ∈ deeds → names ∈ made') →
      w.Scripted made' kind (next a) fun b more => P b (deeds ++ more)) :
    w.Scripted made kind (work >>= next) P := by
  intro among hsteady
  obtain ⟨⟨deeds, result⟩, hplays, hpost⟩ := h among hsteady
  have hnamed : ∀ deed ∈ deeds, deed.Named := fun deed hdeed => (hplays.deeds deed hdeed).1
  cases result with
  | error failure =>
    refine ⟨⟨deeds, .error failure⟩, ⟨hplays.deeds, hplays.founded, fun {d} hd => ?_⟩,
      fun _ h => nomatch h⟩
    rw [run_bind, hplays.run hd, Script.run_work, Script.run_work]
    rcases (perform w.setup.settings.outputRoot deeds).run.run d with ⟨result, d'⟩
    cases result <;> rfl
  | ok a =>
    have hmade : ∀ names, .make names ∈ deeds →
        names ∈ deeds.reverse.flatMap Deed.made ++ made := fun names hmake =>
      List.mem_append_left _ (List.mem_flatMap.2
        ⟨_, List.mem_reverse.2 hmake, List.mem_singleton_self _⟩)
    obtain ⟨⟨more, result⟩, hplays', hpost'⟩ := hnext a deeds _ (hpost a rfl)
      (fun _ => List.mem_append_right _) hmade _ (hsteady.after hnamed hplays.founded)
    refine ⟨⟨deeds ++ more, result⟩, ⟨fun deed hdeed => ?_,
      founded_append.2 ⟨hplays.founded, hplays'.founded⟩, fun {d} hd => ?_⟩, hpost'⟩
    · exact (List.mem_append.1 hdeed).elim (hplays.deeds deed) (hplays'.deeds deed)
    · rw [run_bind, hplays.run hd, Script.run_work, Script.run_work]
      simp only
      rw [run_perform_append]
      cases hrun : (perform w.setup.settings.outputRoot deeds).run.run d with
      | mk result d' =>
        cases result with
        | error failure => rfl
        | ok =>
          simp only
          rw [hplays'.run ⟨d, hd, hrun⟩, Script.run_work]

theorem Scripted.map {f : α → β} (h : w.Scripted made kind work Q)
    (hP : ∀ a deeds, Q a deeds → P (f a) deeds) : w.Scripted made kind (f <$> work) P := by
  rw [← bind_pure_comp]
  exact h.bind fun a deeds _ hQ _ _ => .pure (by simpa using hP a deeds hQ)

theorem Scripted.perform (h : ∀ deed ∈ deeds, deed.Named ∧ kind deed)
    (hfounded : Founded made deeds) :
    w.Scripted made kind (perform w.setup.settings.outputRoot deeds) fun _ done => done = deeds := by
  refine fun among hsteady => ⟨⟨deeds, .ok ()⟩, ⟨h, hfounded, fun {d} hd => ?_⟩, fun _ _ => rfl⟩
  rw [Script.run_work]
  rcases (Files.perform w.setup.settings.outputRoot deeds).run.run d with ⟨result, d'⟩
  cases result <;> rfl

theorem Scripted.ofDeed (hnamed : deed.Named) (hkind : kind deed) (hfounded : deed.FoundedOn made) :
    w.Scripted made kind (deed.work w.setup.settings.outputRoot) fun _ done => done = [deed] := by
  have hone : Files.perform w.setup.settings.outputRoot [deed] =
      deed.work w.setup.settings.outputRoot := by
    simp [Files.perform]
  rw [← hone]
  exact .perform (by simpa using ⟨hnamed, hkind⟩) ⟨hfounded, trivial⟩

theorem Scripted.foldlM {list : List β} {body : α → β → Work α} {G : β → List Deed → Prop} {a : α}
    (hmono : ∀ x deeds more, (∀ deed ∈ deeds, deed ∈ more) → G x deeds → G x more)
    (h : ∀ a, ∀ x ∈ list, ∀ made', (∀ names ∈ made, names ∈ made') →
      w.Scripted made' kind (body a x) fun _ => G x) :
    w.Scripted made kind (list.foldlM body a) fun _ deeds => ∀ x ∈ list, G x deeds := by
  induction list generalizing a made with
  | nil => exact .pure (by simp)
  | cons x list ih =>
    refine .bind (h a x List.mem_cons_self made fun _ => id) fun b deeds made' hG hmade _ => ?_
    refine (ih fun a y hy made'' hmade' => ?_).imp fun _ more hmore => ?_
    · exact h a y (List.mem_cons_of_mem _ hy) made'' fun names hnames =>
        hmade' names (hmade names hnames)
    · refine List.forall_mem_cons.2 ⟨?_, fun y hy => ?_⟩
      · exact hmono x deeds _ (fun _ => List.mem_append_left _) hG
      · exact hmono y more _ (fun _ => List.mem_append_right _) (hmore y hy)

theorem Scripted.forM {list : List β} {body : β → Work PUnit} {G : β → List Deed → Prop}
    (hmono : ∀ x deeds more, (∀ deed ∈ deeds, deed ∈ more) → G x deeds → G x more)
    (h : ∀ x ∈ list, ∀ made', (∀ names ∈ made, names ∈ made') →
      w.Scripted made' kind (body x) fun _ => G x) :
    w.Scripted made kind (list.forM body) fun _ deeds => ∀ x ∈ list, G x deeds := by
  have hfold : ∀ list : List β, list.forM body = list.foldlM (fun _ x => body x) PUnit.unit := by
    intro list
    induction list with
    | nil => rfl
    | cons x list ih =>
      have hcons : (x :: list).forM body = body x >>= fun _ => list.forM body := rfl
      rw [hcons, ih]
      rfl
  rw [hfold]
  exact .foldlM hmono fun _ => h

end Rules

end Workplace

end Unbundle.Build
