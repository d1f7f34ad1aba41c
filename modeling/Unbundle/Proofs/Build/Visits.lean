import Unbundle.Proofs.Build.Beside

/-! What a walk through a module's directory comes to, as a list of visits in the order of names and
depth first. Work goes through such visits when it copies what they come to up to the first that
gives offence, and nothing of that visit and of those behind it. -/

namespace Unbundle.Build
open Unbundle.Files Unbundle.Implementation

namespace Workplace

/-- The directory of a module, or of one of its versions, in the source. -/
def sourceDir (w : Workplace) (module : String) (version : Option String) : Location :=
  (scopeDir module version).reverse ++ w.source

def sourceDirPath (w : Workplace) (module : String) (version : Option String) : Files.Path :=
  sourcePath w.setup.settings (scopeDir module version)

/-- The path to the directory that it has in the output. -/
def packagePath (w : Workplace) (module : String) (version : Option String) : Files.Path :=
  w.setup.settings.outputRoot.joins (scopeDir module version)

/-- What the walk comes to, in the module's directory or in that of a version. -/
inductive Visit where
  /-- A directory, which is made in the output. -/
  | makes (version : Option String)
  /-- The same directory, whose entries are listed. -/
  | lists (version : Option String)
  /-- A file, which is adapted. -/
  | adapts (version : Option String) (name : String) (content : ByteArray)
  /-- An entry of another kind. -/
  | rejects (version : Option String) (name : String)

namespace Visit

def isFile : Visit → Bool
  | adapts .. => true
  | _ => false

end Visit

/-- The directory of a version holds nothing but files. -/
def versionVisit (version : String) : String × Entry → Visit
  | (name, .file content) => .adapts (some version) name content
  | (name, _) => .rejects (some version) name

def versionVisits (w : Workplace) (module version : String) : List Visit :=
  .makes (some version) :: .lists (some version) ::
    (w.ready.tree.children (version :: module :: w.source)).map (versionVisit version)

def entryVisits (w : Workplace) (module : String) : String × Entry → List Visit
  | (name, .file content) => [.adapts none name content]
  | (name, .directory) => w.versionVisits module name
  | (name, .link _) => [.rejects none name]

/-- All visits of the walk through a module's directory. -/
def visits (w : Workplace) (module : String) : List Visit :=
  .makes none :: .lists none ::
    (w.ready.tree.children (module :: w.source)).flatMap (w.entryVisits module)

/-- Why a visit ends the walk, if it does: the entry is of another kind, the file is no text, or a
path is one that cannot be asked for. -/
def offence? (w : Workplace) (module : String) : Visit → Option Failure
  | .makes version =>
    let path := w.packagePath module version
    path.fault?.map (.io path)
  | .lists version =>
    let path := w.sourceDirPath module version
    path.fault?.map (.io path)
  | .adapts version name content =>
    let path := (w.sourceDirPath module version).join name
    let copy := (w.packagePath module version).join name
    match path.fault?, String.fromUTF8? content with
    | some fault, _ => some (.io path fault)
    | none, none => some (.io path .notText)
    | none, some _ => copy.fault?.map (.io copy)
  | .rejects version name =>
    some (.unknownEntry ((w.sourceDirPath module version).join name))

/-- What a visit puts into the output. -/
def copy? (w : Workplace) (module : String) : Visit → Option (Location × Entry)
  | .makes version => some (w.packageDir module version, .directory)
  | .adapts version name content => (String.fromUTF8? content).map fun text =>
    (name :: w.packageDir module version, .file (adaptSource w.setup.settings.imports
      (w.fileContext module version name) text).toUTF8)
  | .lists _ | .rejects .. => none

/-- The source has what the visit comes to. -/
def Visit.In (w : Workplace) (module : String) : Visit → Prop
  | .makes version | .lists version =>
    w.ready.tree.find? (w.sourceDir module version) = some .directory
  | .adapts version name content =>
    w.ready.tree.find? (name :: w.sourceDir module version) = some (.file content)
  | .rejects .. => True

/-- The disk holds what was there before and what was copied by some visits. -/
structure Mirrors (w : Workplace) (module : String) (done : List Visit) (d : Disk) : Prop where
  underway : w.Underway d
  finds : ∀ visit ∈ done, visit.In w module
  find?_iff : ∀ loc entry, d.tree.find? loc = some entry ↔
    w.ready.tree.find? loc = some entry ∨ ∃ visit ∈ done, w.copy? module visit = some (loc, entry)

section Mirrors
variable {w : Workplace} {module name : String} {version : Option String} {done : List Visit}
  {visit other : Visit} {d d' : Disk} {loc : Location} {entry : Entry} {content : ByteArray}

theorem mirrors_ready (w : Workplace) (module : String) : w.Mirrors module [] w.ready :=
  ⟨w.underway_ready, nofun, fun loc entry => by simp⟩

theorem exists_of_copy? (hvisit : visit.In w module)
    (h : w.copy? module visit = some (loc, entry)) : ∃ names : List String,
    loc = names.reverse ++ w.output ∧
      ((w.ready.tree.find? (names.reverse ++ w.source) = some .directory ∧ entry = .directory) ∨
      ∃ version name content text, names = scopeDir module version ++ [name] ∧
        w.ready.tree.find? (names.reverse ++ w.source) = some (.file content) ∧
        String.fromUTF8? content = some text ∧ entry = .file (adaptSource w.setup.settings.imports
          (w.fileContext module version name) text).toUTF8) := by
  cases visit with
  | makes version =>
    obtain ⟨rfl, rfl⟩ := Prod.mk.inj (Option.some.inj h)
    exact ⟨scopeDir module version, rfl, .inl ⟨hvisit, rfl⟩⟩
  | lists | rejects => cases h
  | adapts version name content =>
    obtain ⟨text, htext, heq⟩ := Option.map_eq_some_iff.1 h
    obtain ⟨rfl, rfl⟩ := Prod.mk.inj heq
    have hfile : w.ready.tree.find? (name :: w.sourceDir module version) =
        some (.file content) := hvisit
    exact ⟨scopeDir module version ++ [name], by simp [packageDir],
      .inr ⟨version, name, content, text, rfl, by simpa [sourceDir] using hfile, htext, rfl⟩⟩

theorem scopeDir_concat_inj {first second : Option String} {a b : String}
    (h : scopeDir module first ++ [a] = scopeDir module second ++ [b]) :
    first = second ∧ a = b := by
  obtain ⟨hdir, hname⟩ := List.append_inj' h rfl
  refine ⟨?_, by simpa using hname⟩
  cases first <;> cases second <;> simp_all [scopeDir]

/-- Two visits that put something at one location put the same there. -/
theorem copy?_unique {found : Entry} (hvisit : visit.In w module) (hother : other.In w module)
    (h : w.copy? module visit = some (loc, entry)) (h' : w.copy? module other = some (loc, found)) :
    entry = found := by
  obtain ⟨names, rfl, hentry⟩ := exists_of_copy? hvisit h
  obtain ⟨names', heq, hfound⟩ := exists_of_copy? hother h'
  obtain rfl : names = names' := List.reverse_injective (List.append_cancel_right heq)
  rcases hentry with ⟨hdir, rfl⟩ | ⟨version, name, content, text, hnames, hfile, htext, rfl⟩
  · rcases hfound with ⟨-, rfl⟩ | ⟨_, _, _, _, -, hfile, -⟩
    · rfl
    · rw [hdir] at hfile
      cases hfile
  · rcases hfound with ⟨hdir, -⟩ | ⟨version', name', content', text', hnames', hfile', htext', rfl⟩
    · rw [hdir] at hfile
      cases hfile
    · obtain ⟨rfl, rfl⟩ := scopeDir_concat_inj (hnames.symm.trans hnames')
      rw [hfile] at hfile'
      cases hfile'
      rw [htext] at htext'
      cases htext'
      rfl

theorem Mirrors.keep (h : w.Mirrors module done d) (hvisit : visit.In w module)
    (hcopy : w.copy? module visit = none) : w.Mirrors module (done ++ [visit]) d := by
  refine ⟨h.underway, List.forall_mem_append.2 ⟨h.finds, List.forall_mem_singleton.2 hvisit⟩,
    fun loc entry => ?_⟩
  rw [h.find?_iff]
  simp [hcopy]

theorem beneath_of_copy? (h : w.copy? module visit = some (loc, entry)) :
    Beneath w.output loc := by
  have hbelow : ∀ name (names : List String), Beneath w.output (name :: (names ++ w.output)) :=
    fun name names => ⟨(List.suffix_append names _).trans (List.suffix_cons name _),
      fun heq => absurd (congrArg List.length heq) (by simp; omega)⟩
  cases visit with
  | makes version =>
    obtain ⟨rfl, -⟩ := Prod.mk.inj (Option.some.inj h)
    cases version with
    | none => exact hbelow module []
    | some version => exact hbelow version [module]
  | lists | rejects => cases h
  | adapts version name content =>
    obtain ⟨text, -, heq⟩ := Option.map_eq_some_iff.1 h
    obtain ⟨rfl, -⟩ := Prod.mk.inj heq
    exact hbelow name _

theorem Mirrors.find?_of_copy? (h : w.Mirrors module done d) (fresh : w.Fresh)
    (hvisit : visit.In w module) (hcopy : w.copy? module visit = some (loc, entry)) :
    d.tree.find? loc = none ∨ d.tree.find? loc = some entry := by
  cases hfind : d.tree.find? loc with
  | none => exact .inl rfl
  | some found =>
    refine .inr (congrArg some ?_)
    rcases (h.find?_iff _ _).1 hfind with hready | ⟨other, hother, hcopied⟩
    · rw [fresh (beneath_of_copy? hcopy)] at hready
      cases hready
    · exact copy?_unique (h.finds other hother) hvisit hcopied hcopy

theorem Mirrors.put (h : w.Mirrors module done d) (fresh : w.Fresh) (hd' : w.Underway d')
    (hvisit : visit.In w module) (hcopy : w.copy? module visit = some (loc, entry))
    (hput : ∀ other, d'.tree.find? other = if loc = other then some entry else d.tree.find? other) :
    w.Mirrors module (done ++ [visit]) d' := by
  refine ⟨hd', List.forall_mem_append.2 ⟨h.finds, List.forall_mem_singleton.2 hvisit⟩,
    fun other found => ?_⟩
  rw [hput]
  by_cases heq : loc = other
  · subst heq
    rw [if_pos rfl]
    constructor
    · rintro ⟨⟩
      exact .inr ⟨visit, by simp, hcopy⟩
    · intro hfound
      have hhas : ∃ visit' ∈ done ++ [visit], w.copy? module visit' = some (loc, found) :=
        hfound.resolve_left (by simp [fresh (beneath_of_copy? hcopy)])
      obtain ⟨other, hother, hcopied⟩ := hhas
      have hin : other.In w module := by
        rcases List.mem_append.1 hother with hdone | hlast
        · exact h.finds other hdone
        · exact List.mem_singleton.1 hlast ▸ hvisit
      exact congrArg some (copy?_unique hvisit hin hcopy hcopied)
  · have hnot : w.copy? module visit ≠ some (other, found) := by
      rw [hcopy]
      rintro ⟨⟩
      exact heq rfl
    rw [if_neg heq, h.find?_iff]
    simp [hnot]

end Mirrors

/-- The visits before the first that gives offence. -/
def passed (w : Workplace) (module : String) (visits : List Visit) : List Visit :=
  visits.takeWhile fun visit => (w.offence? module visit).isNone

/-- What visits come to: a value, or the failure of the first that gives offence. -/
def outcome {α : Type} (w : Workplace) (module : String) (visits : List Visit) (value : α) :
    Except Failure α :=
  match visits.findSome? (w.offence? module) with
  | some failure => .error failure
  | none => .ok value

/-- On a disk that mirrors what was done before, work goes through visits. -/
structure Walks {α : Type} (w : Workplace) (module : String) (done visits : List Visit)
    (work : Work α) (value : α) : Prop where
  result : ∀ {d}, w.Mirrors module done d → (work.run.run d).1 = w.outcome module visits value
  mirrors : ∀ {d}, w.Mirrors module done d →
    w.Mirrors module (done ++ w.passed module visits) (work.run.run d).2

section Walks
variable {α β : Type} {w : Workplace} {module : String} {done visits more : List Visit}
  {visit : Visit} {failure : Failure} {work : Work α} {next : α → Work β} {a a' : α} {b : β}

theorem outcome_error (h : visits.findSome? (w.offence? module) = some failure) :
    w.outcome module visits a = .error failure := by
  rw [outcome, h]

theorem outcome_ok (h : visits.findSome? (w.offence? module) = none) :
    w.outcome module visits a = .ok a := by
  rw [outcome, h]

theorem passed_append_of_ok (h : visits.findSome? (w.offence? module) = none) :
    w.passed module (visits ++ more) = visits ++ w.passed module more :=
  List.takeWhile_append_of_pos fun visit hvisit =>
    Option.isNone_iff_eq_none.2 (List.findSome?_eq_none_iff.1 h visit hvisit)

theorem passed_eq_self (h : visits.findSome? (w.offence? module) = none) :
    w.passed module visits = visits := by
  have happend : w.passed module (visits ++ []) = visits ++ w.passed module [] :=
    passed_append_of_ok h
  simpa [passed] using happend

theorem passed_append_of_error (h : visits.findSome? (w.offence? module) = some failure) :
    w.passed module (visits ++ more) = w.passed module visits := by
  obtain ⟨first, visit, behind, rfl, hvisit, hfirst⟩ := List.findSome?_eq_some_iff.1 h
  have hok := List.findSome?_eq_none_iff.2 hfirst
  have hstop : ∀ behind, w.passed module (visit :: behind) = [] := by simp [passed, hvisit]
  rw [List.append_assoc, List.cons_append, passed_append_of_ok hok, passed_append_of_ok hok, hstop,
    hstop]

theorem Walks.pure : w.Walks module done [] (pure a) a where
  result _ := rfl
  mirrors h := by rwa [passed, List.takeWhile_nil, List.append_nil]

theorem Walks.value_congr (h : w.Walks module done visits work a)
    (hvalue : visits.findSome? (w.offence? module) = none → a = a') :
    w.Walks module done visits work a' where
  result hd := by
    rw [h.result hd, outcome, outcome]
    cases hfirst : visits.findSome? (w.offence? module) with
    | some failure => rfl
    | none => rw [hvalue hfirst]
  mirrors := h.mirrors

theorem Walks.bind (h : w.Walks module done visits work a)
    (hnext : w.Walks module (done ++ visits) more (next a) b) :
    w.Walks module done (visits ++ more) (work >>= next) b := by
  have hboth : ∀ {d}, w.Mirrors module done d →
      ((work >>= next).run.run d).1 = w.outcome module (visits ++ more) b ∧
      w.Mirrors module (done ++ w.passed module (visits ++ more))
        ((work >>= next).run.run d).2 := by
    intro d hd
    have hresult := h.result hd
    have hmirrors := h.mirrors hd
    rw [run_bind]
    revert hresult hmirrors
    rcases work.run.run d with ⟨result, d'⟩
    rintro (rfl : result = _) (hd' : w.Mirrors module _ d')
    cases hfirst : visits.findSome? (w.offence? module) with
    | some failure =>
      have hall : (visits ++ more).findSome? (w.offence? module) = some failure := by
        rw [List.findSome?_append, hfirst, Option.some_or]
      rw [outcome_error hfirst, outcome_error hall, passed_append_of_error hfirst]
      exact ⟨rfl, hd'⟩
    | none =>
      have hall : (visits ++ more).findSome? (w.offence? module) =
          more.findSome? (w.offence? module) := by
        rw [List.findSome?_append, hfirst, Option.none_or]
      rw [passed_eq_self hfirst] at hd'
      rw [outcome_ok hfirst, passed_append_of_ok hfirst, ← List.append_assoc, outcome, hall]
      exact ⟨hnext.result hd', hnext.mirrors hd'⟩
  exact ⟨fun hd => (hboth hd).1, fun hd => (hboth hd).2⟩

theorem Walks.bind_pure {f : α → β} (h : w.Walks module done visits work a) :
    w.Walks module done visits (work >>= fun a => Pure.pure (f a)) (f a) := by
  rw [← List.append_nil visits]
  exact h.bind .pure

theorem Walks.error (h : w.offence? module visit = some failure)
    (hrun : ∀ {d}, w.Mirrors module done d → work.run.run d = (.error failure, d)) :
    w.Walks module done [visit] work a := by
  have hfirst : [visit].findSome? (w.offence? module) = some failure := by simp [h]
  have hpassed : w.passed module [visit] = [] := by simp [passed, h]
  refine ⟨fun hd => ?_, fun hd => ?_⟩
  · rw [hrun hd, outcome_error hfirst]
  · rwa [hrun hd, hpassed, List.append_nil]

theorem Walks.ok (h : w.offence? module visit = none)
    (hrun : ∀ {d}, w.Mirrors module done d → ∃ d', work.run.run d = (.ok a, d') ∧
      w.Mirrors module (done ++ [visit]) d') : w.Walks module done [visit] work a := by
  have hfirst : [visit].findSome? (w.offence? module) = none := by simp [h]
  refine ⟨fun hd => ?_, fun hd => ?_⟩
  · obtain ⟨d', heq, -⟩ := hrun hd
    rw [heq, outcome_ok hfirst]
  · obtain ⟨d', heq, hd'⟩ := hrun hd
    rwa [heq, passed_eq_self hfirst]

theorem Walks.foldlM {list : List β} {visitsOf : β → List Visit} {body : α → β → Work α}
    {step : α → β → α}
    (h : ∀ a, ∀ x ∈ list, ∀ done', (∀ visit ∈ done, visit ∈ done') →
      w.Walks module done' (visitsOf x) (body a x) (step a x)) :
    w.Walks module done (list.flatMap visitsOf) (list.foldlM body a) (list.foldl step a) := by
  induction list generalizing a done with
  | nil => exact .pure
  | cons x list ih =>
    rw [List.flatMap_cons, List.foldl_cons]
    refine (h a x List.mem_cons_self done fun _ => id).bind (ih fun a y hy done' hdone' => ?_)
    exact h a y (List.mem_cons_of_mem _ hy) done' fun visit hvisit =>
      hdone' visit (List.mem_append_left _ hvisit)

theorem Walks.forM {list : List β} {visitOf : β → Visit} {body : β → Work PUnit}
    (h : ∀ x ∈ list, ∀ done', (∀ visit ∈ done, visit ∈ done') →
      w.Walks module done' [visitOf x] (body x) ⟨⟩) :
    w.Walks module done (list.map visitOf) (list.forM body) ⟨⟩ := by
  induction list generalizing done with
  | nil => exact .pure
  | cons x list ih =>
    refine (h x List.mem_cons_self done fun _ => id).bind (ih fun y hy done' hdone' => ?_)
    exact h y (List.mem_cons_of_mem _ hy) done' fun visit hvisit =>
      hdone' visit (List.mem_append_left _ hvisit)

end Walks

end Workplace

end Unbundle.Build
