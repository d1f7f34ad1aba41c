import Unbundle.Failure

/-! Work done on two states side by side, be they disks or sessions. It is in step when it comes to
the same result on both and leaves them related as they were before; work put together from such
work is in step as well. -/

namespace Unbundle.Files

/-- On two related states the work gives one result, leaves them related, and what it gives
satisfies `Q`, together with the first of the two states. -/
def InStep {σ ε α : Type} (R : σ → σ → Prop) (work : ExceptT ε (StateM σ) α) (Q : α → σ → Prop) :
    Prop :=
  ∀ d e, R d e → (work.run.run d).1 = (work.run.run e).1 ∧
    R (work.run.run d).2 (work.run.run e).2 ∧
    ∀ a, (work.run.run d).1 = .ok a → Q a (work.run.run d).2

/-- The same for work that cannot fail; `Q` is about what it gives alone. -/
def RunsInStep {σ α : Type} (R : σ → σ → Prop) (work : StateM σ α) (Q : α → Prop) : Prop :=
  ∀ d e, R d e → (work.run d).1 = (work.run e).1 ∧ R (work.run d).2 (work.run e).2 ∧
    Q (work.run d).1

/-- Two works leave related states related and give results that `P` relates. -/
def Coupled {σ α β : Type} (R : σ → σ → Prop) (first : StateM σ α) (second : StateM σ β)
    (P : α → β → Prop) : Prop :=
  ∀ d e, R d e → P (first.run d).1 (second.run e).1 ∧ R (first.run d).2 (second.run e).2

section Runs
variable {σ ε δ α β : Type} {work : ExceptT ε (StateM σ) α} {state : σ}

theorem runState_bind {work : StateM σ α} {next : α → StateM σ β} :
    (work >>= next).run state = (next (work.run state).1).run (work.run state).2 := rfl

theorem run_get : (get : ExceptT ε (StateM σ) σ).run.run state = (.ok state, state) := rfl

theorem run_bind {next : α → ExceptT ε (StateM σ) β} : (work >>= next).run.run state =
    match work.run.run state with
    | (.ok a, state) => (next a).run.run state
    | (.error fault, state) => (.error fault, state) := by
  cases h : work.run.run state with
  | mk result state' =>
    have hbind : (work >>= next).run.run state =
        (ExceptT.bindCont next (work.run.run state).1).run (work.run.run state).2 := rfl
    rw [hbind, h]
    cases result <;> rfl

theorem exists_of_run_bind {next : α → ExceptT ε (StateM σ) β} {b : β} {state' : σ}
    (h : (work >>= next).run.run state = (.ok b, state')) :
    ∃ a middle, work.run.run state = (.ok a, middle) ∧
      (next a).run.run middle = (.ok b, state') := by
  rw [run_bind] at h
  rcases hrun : work.run.run state with ⟨result, middle⟩
  rw [hrun] at h
  cases result with
  | error fault => cases h
  | ok a => exact ⟨a, middle, rfl, h⟩

theorem run_tryCatch {handle : ε → ExceptT ε (StateM σ) α} :
    (tryCatch work handle).run.run state =
      match work.run.run state with
      | (.ok a, state) => (.ok a, state)
      | (.error fault, state) => (handle fault).run.run state := by
  have hcatch : (tryCatch work handle).run = ExceptT.tryCatch work handle := rfl
  cases h : work.run.run state with
  | mk result state' =>
    have hwork : StateT.run work state = (result, state') := h
    rw [hcatch]
    unfold ExceptT.tryCatch ExceptT.mk
    rw [runState_bind, hwork]
    cases result <;> rfl

theorem run_adapt {f : ε → δ} : (ExceptT.adapt f work).run.run state =
    ((work.run.run state).1.mapError f, (work.run.run state).2) := rfl

theorem run_of_run_adapt {f : ε → δ} {a : α} {state' : σ}
    (h : (ExceptT.adapt f work).run.run state = (.ok a, state')) :
    work.run.run state = (.ok a, state') := by
  rw [run_adapt] at h
  rcases hrun : work.run.run state with ⟨result, middle⟩
  rw [hrun] at h
  cases result with
  | error fault => cases h
  | ok a =>
    cases h
    rfl

theorem run_lift {work : StateM σ α} :
    (ExceptT.lift work : ExceptT ε (StateM σ) α).run.run state =
      (.ok (work.run state).1, (work.run state).2) := rfl

theorem run_ofDisk {read : Disk → Except ε α} {disk : Disk} :
    (DiskM.ofDisk read).run.run disk = (read disk, disk) := by
  unfold DiskM.ofDisk
  rw [run_bind, run_get]
  simp only
  cases read disk <;> rfl

end Runs

section InStep
variable {σ ε δ α β : Type} {R : σ → σ → Prop} {Q : α → σ → Prop} {P : β → σ → Prop}
  {work : ExceptT ε (StateM σ) α}

theorem InStep.imp {Q' : α → σ → Prop} (h : InStep R work Q)
    (hQ : ∀ a state, Q a state → Q' a state) :
    InStep R work Q' := by
  intro d e hR
  obtain ⟨heq, hrel, hpost⟩ := h d e hR
  exact ⟨heq, hrel, fun a ha => hQ a _ (hpost a ha)⟩

theorem InStep.pure {a : α} (h : ∀ state, Q a state) :
    InStep R (pure a : ExceptT ε (StateM σ) α) Q := by
  intro d e hR
  refine ⟨rfl, hR, fun b hb => ?_⟩
  cases hb
  exact h _

theorem InStep.throw {fault : ε} : InStep R (throw fault : ExceptT ε (StateM σ) α) Q :=
  fun _ _ hR => ⟨rfl, hR, fun _ h => nomatch h⟩

theorem InStep.modify {change : σ → σ} (h : ∀ d e, R d e → R (change d) (change e)) :
    InStep R (modify change : ExceptT ε (StateM σ) PUnit) fun _ _ => True :=
  fun d e hR => ⟨rfl, h d e hR, fun _ _ => trivial⟩

theorem InStep.exists_run (h : InStep R work Q) {d e : σ} (hR : R d e) :
    ∃ result d' e', work.run.run d = (result, d') ∧ work.run.run e = (result, e') ∧ R d' e' ∧
      ∀ a, result = .ok a → Q a d' := by
  obtain ⟨heq, hrel, hpost⟩ := h d e hR
  exact ⟨_, _, (work.run.run e).2, rfl, Prod.ext heq.symm rfl, hrel, hpost⟩

theorem InStep.bind {next : α → ExceptT ε (StateM σ) β} (h : InStep R work Q)
    (hnext : ∀ a state, Q a state → InStep R (next a) P) : InStep R (work >>= next) P := by
  intro d e hR
  obtain ⟨result, d', e', hd, he, hrel, hpost⟩ := h.exists_run hR
  rw [run_bind, run_bind, hd, he]
  cases result with
  | error fault => exact ⟨rfl, hrel, fun _ h => nomatch h⟩
  | ok a => exact hnext a d' (hpost a rfl) d' e' hrel

/-- Only the faults that the work has on one of the disks have to be handled. -/
theorem InStep.tryCatch {handle : ε → ExceptT ε (StateM σ) α} (h : InStep R work Q)
    (hhandle : ∀ d e fault, R d e → (work.run.run d).1 = .error fault → InStep R (handle fault) Q) :
    InStep R (tryCatch work handle) Q := by
  intro d e hR
  obtain ⟨result, d', e', hd, he, hrel, hpost⟩ := h.exists_run hR
  rw [run_tryCatch, run_tryCatch, hd, he]
  cases result with
  | error fault => exact hhandle d e fault hR (by rw [hd]) d' e' hrel
  | ok a => exact ⟨rfl, hrel, hpost⟩

theorem InStep.adapt {f : ε → δ} (h : InStep R work Q) : InStep R (ExceptT.adapt f work) Q := by
  intro d e hR
  obtain ⟨result, d', e', hd, he, hrel, hpost⟩ := h.exists_run hR
  rw [run_adapt, run_adapt, hd, he]
  refine ⟨rfl, hrel, fun a ha => hpost a ?_⟩
  cases result with
  | error fault => cases ha
  | ok b =>
    cases ha
    rfl

theorem InStep.map {f : α → β} (h : InStep R work Q) (hP : ∀ a state, Q a state → P (f a) state) :
    InStep R (f <$> work) P := by
  rw [← bind_pure_comp]
  intro d e hR
  obtain ⟨result, d', e', hd, he, hrel, hpost⟩ := h.exists_run hR
  rw [run_bind, run_bind, hd, he]
  cases result with
  | error fault => exact ⟨rfl, hrel, fun _ h => nomatch h⟩
  | ok a =>
    refine ⟨rfl, hrel, fun b hb => ?_⟩
    cases hb
    exact hP a d' (hpost a rfl)

theorem InStep.ofDisk {R : Disk → Disk → Prop} {Q : α → Disk → Prop} {read : Disk → Except ε α}
    (h : ∀ d e, R d e → read d = read e)
    (hQ : ∀ d e a, R d e → read d = .ok a → Q a d) : InStep R (DiskM.ofDisk read) Q := by
  intro d e hR
  rw [run_ofDisk, run_ofDisk]
  exact ⟨h d e hR, hR, fun a ha => hQ d e a hR ha⟩

/-- What the work goes on with may depend on the state as far as it does not tell the two apart. -/
theorem InStep.get_bind {next : σ → ExceptT ε (StateM σ) α} (heq : ∀ d e, R d e → next d = next e)
    (h : ∀ d e, R d e → InStep R (next d) Q) : InStep R (get >>= next) Q := by
  intro d e hR
  rw [run_bind, run_bind, run_get, run_get]
  simp only
  rw [← heq d e hR]
  exact h d e hR d e hR

theorem InStep.forM {list : List β} {body : β → ExceptT ε (StateM σ) PUnit}
    (h : ∀ x ∈ list, InStep R (body x) fun _ _ => True) :
    InStep R (list.forM body) fun _ _ => True := by
  induction list with
  | nil => exact .pure fun _ => trivial
  | cons x list ih =>
    obtain ⟨hx, hlist⟩ := List.forall_mem_cons.1 h
    exact .bind hx fun _ _ _ => ih hlist

theorem InStep.foldlM {I : α → Prop} {list : List β}
    {body : α → β → ExceptT ε (StateM σ) α} {a : α} (ha : I a)
    (h : ∀ a, ∀ x ∈ list, I a → InStep R (body a x) fun b _ => I b) :
    InStep R (list.foldlM body a) fun b _ => I b := by
  induction list generalizing a with
  | nil => exact .pure fun _ => ha
  | cons x list ih =>
    refine .bind (h a x (by simp) ha) fun b _ hb => ih hb fun a x hx => ?_
    exact h a x (List.mem_cons_of_mem _ hx)

theorem InStep.at {R : Disk → Disk → Prop} {Q : α → Disk → Prop} {work : DiskM Fault α}
    {path : Path} (h : InStep R work Q) :
    InStep R (Work.at path work) Q := h.adapt

end InStep

section RunsInStep
variable {σ ε α β : Type} {R : σ → σ → Prop} {Q : α → Prop} {P : β → Prop} {work : StateM σ α}

theorem InStep.runs {work : ExceptT ε (StateM σ) α} (h : InStep R work fun a _ => Q a) :
    RunsInStep R work.run fun result => ∀ a, result = .ok a → Q a := h

theorem RunsInStep.pure {a : α} (h : Q a) : RunsInStep R (pure a) Q := fun _ _ hR => ⟨rfl, hR, h⟩

theorem RunsInStep.bind {next : α → StateM σ β} (h : RunsInStep R work Q)
    (hnext : ∀ a, Q a → RunsInStep R (next a) P) : RunsInStep R (work >>= next) P := by
  intro d e hR
  obtain ⟨heq, hrel, hpost⟩ := h d e hR
  rw [runState_bind, runState_bind, ← heq]
  exact hnext _ hpost _ _ hrel

theorem RunsInStep.foldlM {list : List β} {body : α → β → StateM σ α} {a : α} (ha : Q a)
    (h : ∀ a, ∀ x ∈ list, Q a → RunsInStep R (body a x) Q) :
    RunsInStep R (list.foldlM body a) Q := by
  induction list generalizing a with
  | nil => exact .pure ha
  | cons x list ih =>
    refine .bind (h a x (by simp) ha) fun b hb => ih hb fun a x hx => ?_
    exact h a x (List.mem_cons_of_mem _ hx)

end RunsInStep

section Coupled
variable {σ α α' β β' : Type} {R : σ → σ → Prop} {P : α → α' → Prop} {P' : β → β' → Prop}
  {first : StateM σ α} {second : StateM σ α'}

theorem RunsInStep.coupled {Q : α → Prop} (h : RunsInStep R first Q) :
    Coupled R first first fun a b => a = b ∧ Q a := by
  intro d e hR
  obtain ⟨heq, hrel, hpost⟩ := h d e hR
  exact ⟨⟨heq, hpost⟩, hrel⟩

theorem Coupled.pure {a : α} {a' : α'} (h : P a a') :
    Coupled R (pure a) (pure a') P := fun _ _ hR => ⟨h, hR⟩

theorem Coupled.bind {next : α → StateM σ β} {next' : α' → StateM σ β'}
    (h : Coupled R first second P) (hnext : ∀ a a', P a a' → Coupled R (next a) (next' a') P') :
    Coupled R (first >>= next) (second >>= next') P' := by
  intro d e hR
  obtain ⟨hresult, hrel⟩ := h d e hR
  exact hnext _ _ hresult _ _ hrel

end Coupled

end Unbundle.Files
