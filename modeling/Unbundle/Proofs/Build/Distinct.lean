import Unbundle.Proofs.Build.Planned

/-! Two units of one build do not get in each other's way: as far as names go, what one of them
writes is neither written nor made a directory by another one. Units of different names are kept
apart by the names, and units of one name by what stands behind it. -/

namespace Unbundle.Build
open Unbundle.Files Unbundle.Types Unbundle.Declaration

namespace Workplace

/-- Where a unit makes directories and writes files. -/
def foot (w : Workplace) (types : Except Failure TypesPlan) (unit : WorkUnit) : Footprint :=
  .ofKind (w.Deeds types unit)

/-- Nothing in the source is named like the core package or like the directories of types, as far as
the units of different names would write the same files. -/
structure Tidy (w : Workplace) : Prop where
  extension : '/' ∉ w.setup.settings.extension.toList
  core : ¬ w.Discovered coreName
  types : ∀ {module}, w.Discovered module →
    w.ready.tree.find? (typesName :: module :: w.source) ≠ some .directory

/-- No entry of a module's or of a version's directory is called `types`, and no file of a module is
called like a version of its types. -/
structure Plain (w : Workplace) (types : Except Failure TypesPlan) : Prop where
  entry : ∀ {module}, w.Discovered module →
    w.ready.tree.find? (typesName :: module :: w.source) = none
  versionEntry : ∀ {module version}, w.Discovered module →
    w.ready.tree.find? (typesName :: version :: module :: w.source) = none
  file : ∀ {module plan version content}, w.Discovered module → types = .ok plan →
    version ∈ plan.streams.versionsOf module →
    w.ready.tree.find? (version :: module :: w.source) ≠ some (.file content)

/-- Two units of one name: a package, and the types that are called like it. -/
inductive Rivals (w : Workplace) : WorkUnit → WorkUnit → Prop where
  | core : Rivals w .core (.types coreName)
  | module {module} (discovered : w.Discovered module) :
    Rivals w (.implementation module) (.types module)

section Shapes
variable {w : Workplace} {types : Except Failure TypesPlan} {unit other : WorkUnit}
  {module : String} {names : List String}

/-- The names that stand for a scope's files. -/
inductive TypesFile (extension : String) (scope : List String) : List String → Prop where
  | own {stem} (name : IsName stem) :
    TypesFile extension scope (scope ++ [typesName] ++ [fileName stem extension])
  | enums {stem} (name : IsName stem) :
    TypesFile extension scope (scope ++ [typesName] ++ [enumsName] ++ [fileName stem extension])

theorem typesFile_of_isDeed {root blame : Files.Path} {scope dir : List String} {name : String}
    {extension : String} {content : ByteArray}
    (h : ScopeTypes.IsDeed root scope extension (.write blame dir name content)) :
    TypesFile extension scope (dir ++ [name]) := by
  cases h with
  | file hname => exact .own hname
  | enumsFile hname => exact .enums hname

theorem files_core (h : (w.foot types .core).files names) :
    ∃ stem, names = [coreName, fileName stem w.setup.settings.extension] := by
  obtain ⟨blame, dir, name, content, hdeed, rfl⟩ := h
  cases hdeed with
  | @file _ stem => exact ⟨stem, rfl⟩

theorem dirs_core (h : (w.foot types .core).dirs names) : names = [coreName] := by
  obtain ⟨hne, full, hdeed, hprefix⟩ := h
  cases hdeed with
  | directory =>
    obtain ⟨name, names, rfl⟩ := List.exists_cons_of_ne_nil hne
    obtain ⟨rfl, hrest⟩ := List.cons_prefix_cons.1 hprefix
    rw [List.prefix_nil.1 hrest]

theorem files_implementation (h : (w.foot types (.implementation module)).files names) :
    (∃ name content, names = [module, name] ∧
      w.ready.tree.find? (name :: module :: w.source) = some (.file content)) ∨
    ∃ version name content, names = [module, version, name] ∧
      w.ready.tree.find? (version :: module :: w.source) = some .directory ∧
      w.ready.tree.find? (name :: version :: module :: w.source) = some (.file content) := by
  obtain ⟨blame, dir, name, content, hdeed, rfl⟩ := h
  cases hdeed with
  | file _ has =>
    obtain ⟨bytes, hfind, -⟩ := has
    exact .inl ⟨name, bytes, rfl, hfind⟩
  | @versionFile version _ _ _ _ found has =>
    obtain ⟨bytes, hfind, -⟩ := has
    exact .inr ⟨version, name, bytes, rfl, found, hfind⟩

theorem dirs_implementation (h : (w.foot types (.implementation module)).dirs names) :
    names = [module] ∨ ∃ version, names = [module, version] := by
  obtain ⟨hne, full, hdeed, hprefix⟩ := h
  obtain ⟨name, names, rfl⟩ := List.exists_cons_of_ne_nil hne
  cases hdeed with
  | directory =>
    obtain ⟨rfl, hrest⟩ := List.cons_prefix_cons.1 hprefix
    obtain rfl := List.prefix_nil.1 hrest
    exact .inl rfl
  | @versionDirectory version =>
    obtain ⟨rfl, hrest⟩ := List.cons_prefix_cons.1 hprefix
    cases names with
    | nil => exact .inl rfl
    | cons second names =>
      obtain ⟨rfl, hend⟩ := List.cons_prefix_cons.1 hrest
      obtain rfl := List.prefix_nil.1 hend
      exact .inr ⟨second, rfl⟩

theorem files_types (h : (w.foot types (.types module)).files names) :
    ∃ plan version, types = .ok plan ∧ version ∈ plan.streams.scopesOf module ∧
      TypesFile w.setup.settings.extension (scopeDir module version) names := by
  obtain ⟨blame, dir, name, content, ⟨plan, htypes, version, hversion, hdeed⟩, rfl⟩ := h
  exact ⟨plan, version, htypes, hversion, typesFile_of_isDeed hdeed⟩

theorem dirs_types (h : (w.foot types (.types module)).dirs names) :
    ∃ plan version, types = .ok plan ∧ version ∈ plan.streams.scopesOf module ∧ names ≠ [] ∧
      names <+: scopeDir module version ++ [typesName, enumsName] := by
  obtain ⟨hne, full, ⟨plan, htypes, version, hversion, hdeed⟩, hprefix⟩ := h
  refine ⟨plan, version, htypes, hversion, hne, hprefix.trans ?_⟩
  cases hdeed with
  | directory => exact List.prefix_append_right_inj _ |>.2 (by decide)
  | enums => simp

theorem head_files (h : (w.foot types unit).files names) : names.head? = some unit.name := by
  cases unit with
  | core =>
    obtain ⟨stem, rfl⟩ := files_core h
    rfl
  | implementation module =>
    rcases files_implementation h with ⟨name, content, rfl, -⟩ | ⟨version, name, content, rfl, -⟩
    · rfl
    · rfl
  | types module =>
    obtain ⟨plan, version, -, -, hfile⟩ := files_types h
    cases version with
    | none => cases hfile <;> rfl
    | some version => cases hfile <;> rfl

theorem head_dirs (h : (w.foot types unit).dirs names) : names.head? = some unit.name := by
  cases unit with
  | core =>
    rw [dirs_core h]
    rfl
  | implementation module =>
    rcases dirs_implementation h with rfl | ⟨version, rfl⟩
    · rfl
    · rfl
  | types module =>
    obtain ⟨plan, version, -, -, hne, hprefix⟩ := dirs_types h
    obtain ⟨name, names, rfl⟩ := List.exists_cons_of_ne_nil hne
    cases version with
    | none =>
      obtain ⟨rfl, -⟩ := List.cons_prefix_cons.1 hprefix
      rfl
    | some version =>
      obtain ⟨rfl, -⟩ := List.cons_prefix_cons.1 hprefix
      rfl

theorem TypesFile.eq_cons {extension : String} {version : Option String}
    (h : TypesFile extension (scopeDir module version) names) :
    (∃ name, names = [module, typesName, name]) ∨
      ∃ second third fourth more, names = module :: second :: third :: fourth :: more := by
  cases version with
  | none =>
    cases h with
    | own => exact .inl ⟨_, rfl⟩
    | enums => exact .inr ⟨_, _, _, _, rfl⟩
  | some version =>
    cases h with
    | own => exact .inr ⟨_, _, _, _, rfl⟩
    | enums => exact .inr ⟨_, _, _, _, rfl⟩

end Shapes

section Pairs
variable {w : Workplace} {types : Except Failure TypesPlan} {unit other : WorkUnit}
  {module : String} {names : List String}

theorem files_core_types (h : (w.foot types .core).files names) :
    ¬ (w.foot types (.types module)).files names := by
  intro h'
  obtain ⟨stem, rfl⟩ := files_core h
  obtain ⟨plan, version, -, -, hfile⟩ := files_types h'
  rcases hfile.eq_cons with ⟨name, heq⟩ | ⟨second, third, fourth, more, heq⟩
  · simp at heq
  · simp at heq

theorem Tidy.files_implementation_types (tidy : w.Tidy) (hmodule : w.Discovered module)
    (h : (w.foot types (.implementation module)).files names) :
    ¬ (w.foot types (.types module)).files names := by
  intro h'
  obtain ⟨plan, version, -, -, hfile⟩ := files_types h'
  rcases files_implementation h with ⟨name, content, rfl, -⟩ | ⟨version', name, content, rfl, hdir, -⟩
  · rcases hfile.eq_cons with ⟨name, heq⟩ | ⟨second, third, fourth, more, heq⟩
    · simp at heq
    · simp at heq
  · rcases hfile.eq_cons with ⟨name, heq⟩ | ⟨second, third, fourth, more, heq⟩
    · simp only [List.cons.injEq, true_and] at heq
      exact tidy.types hmodule (heq.1 ▸ hdir)
    · simp at heq

/-- Different units of one name are rivals, since no module is called like the core package. -/
theorem Tidy.rivals (tidy : w.Tidy) (hne : unit ≠ other) (hunit : w.Suits unit)
    (hother : w.Suits other) (hname : unit.name = other.name) :
    w.Rivals unit other ∨ w.Rivals other unit := by
  cases unit with
  | core =>
    cases other with
    | core => exact absurd rfl hne
    | implementation module =>
      exact absurd ((show coreName = module from hname) ▸ hother) tidy.core
    | types module =>
      obtain rfl : coreName = module := hname
      exact .inl .core
  | implementation module =>
    cases other with
    | core => exact absurd ((show module = coreName from hname) ▸ hunit) tidy.core
    | implementation module' => exact absurd (congrArg _ hname) hne
    | types module' =>
      obtain rfl : module = module' := hname
      exact .inl (.module hunit)
  | types module =>
    cases other with
    | core =>
      obtain rfl : module = coreName := hname
      exact .inr .core
    | implementation module' =>
      obtain rfl : module = module' := hname
      exact .inr (.module hother)
    | types module' => exact absurd (congrArg _ hname) hne

theorem Tidy.files_rivals (tidy : w.Tidy) (hrivals : w.Rivals unit other)
    (h : (w.foot types unit).files names) : ¬ (w.foot types other).files names := by
  cases hrivals with
  | core => exact files_core_types h
  | module discovered => exact tidy.files_implementation_types discovered h

theorem Tidy.files_disjoint (tidy : w.Tidy) (hne : unit ≠ other) (hunit : w.Suits unit)
    (hother : w.Suits other) (h : (w.foot types unit).files names) :
    ¬ (w.foot types other).files names := by
  intro h'
  have hname : unit.name = other.name := Option.some.inj ((head_files h).symm.trans (head_files h'))
  rcases tidy.rivals hne hunit hother hname with hrivals | hrivals
  · exact tidy.files_rivals hrivals h h'
  · exact tidy.files_rivals hrivals h' h

theorem not_dot_of_isIdentifier {name : String} (h : IsIdentifier name.toList) :
    '.' ∉ name.toList := by
  cases hname : name.toList with
  | nil => simp
  | cons c s =>
    rw [hname] at h
    intro hmem
    rcases List.mem_cons.1 hmem with rfl | hmem
    · exact absurd h.1 (by decide)
    · exact absurd (h.2 _ hmem) (by decide)

theorem dot_mem_fileName (stem extension : String) : '.' ∈ (fileName stem extension).toList := by
  simp [fileName]

theorem second_dirs_types (htypes : TypesNamed types) {second : String} {more : List String}
    (h : (w.foot types (.types module)).dirs (module :: second :: more)) :
    '.' ∉ second.toList ∧ (second = typesName ∨ ∃ plan, types = .ok plan ∧
      second ∈ plan.streams.versionsOf module) := by
  obtain ⟨plan, version, rfl, hversion, -, hprefix⟩ := dirs_types h
  cases version with
  | none =>
    obtain ⟨rfl, -⟩ := List.cons_prefix_cons.1 (List.cons_prefix_cons.1 hprefix).2
    exact ⟨by decide, .inl rfl⟩
  | some version =>
    obtain ⟨rfl, -⟩ := List.cons_prefix_cons.1 (List.cons_prefix_cons.1 hprefix).2
    have hmem : second ∈ plan.streams.versionsOf module := by
      simpa [Streams.scopesOf] using hversion
    have hnamed := (htypes plan rfl).isIdentifier_of_mem_versionsOf hmem
    exact ⟨not_dot_of_isIdentifier hnamed, .inr ⟨plan, rfl, hmem⟩⟩

theorem third_dirs_types {second third : String} {more : List String}
    (h : (w.foot types (.types module)).dirs (module :: second :: third :: more)) :
    second = typesName ∨ third = typesName := by
  obtain ⟨plan, version, -, -, -, hprefix⟩ := dirs_types h
  cases version with
  | none => exact .inl (List.cons_prefix_cons.1 (List.cons_prefix_cons.1 hprefix).2).1
  | some version =>
    have hrest := (List.cons_prefix_cons.1 hprefix).2
    exact .inr (List.cons_prefix_cons.1 (List.cons_prefix_cons.1 hrest).2).1

theorem Plain.files_implementation_dirs (plain : w.Plain types) (htypes : TypesNamed types)
    (hmodule : w.Discovered module) (h : (w.foot types (.implementation module)).files names) :
    ¬ (w.foot types (.types module)).dirs names := by
  intro h'
  rcases files_implementation h with
    ⟨name, content, rfl, hfile⟩ | ⟨version, name, content, rfl, hdir, hfile⟩
  · rcases (second_dirs_types htypes h').2 with rfl | ⟨plan, hplan, hversion⟩
    · rw [plain.entry hmodule] at hfile
      cases hfile
    · exact plain.file hmodule hplan hversion hfile
  · rcases third_dirs_types h' with rfl | rfl
    · rw [plain.entry hmodule] at hdir
      cases hdir
    · rw [plain.versionEntry hmodule] at hfile
      cases hfile

theorem Plain.files_dirs_rivals (plain : w.Plain types) (htypes : TypesNamed types)
    (hrivals : w.Rivals unit other) (h : (w.foot types unit).files names) :
    ¬ (w.foot types other).dirs names := by
  intro h'
  cases hrivals with
  | core =>
    obtain ⟨stem, rfl⟩ := files_core h
    exact (second_dirs_types htypes h').1 (dot_mem_fileName _ _)
  | module discovered => exact plain.files_implementation_dirs htypes discovered h h'

theorem files_types_dirs_rivals (hrivals : w.Rivals other unit)
    (h : (w.foot types unit).files names) : ¬ (w.foot types other).dirs names := by
  intro h'
  have hlong : ∀ {module}, (w.foot types (.types module)).files names →
      ∃ second third more, names = module :: second :: third :: more := by
    intro module h
    obtain ⟨plan, version, -, -, hfile⟩ := files_types h
    rcases hfile.eq_cons with ⟨name, heq⟩ | ⟨second, third, fourth, more, heq⟩
    · exact ⟨_, _, _, heq⟩
    · exact ⟨_, _, _, heq⟩
  cases hrivals with
  | core =>
    obtain ⟨second, third, more, rfl⟩ := hlong h
    simpa using dirs_core h'
  | module =>
    obtain ⟨second, third, more, rfl⟩ := hlong h
    rcases dirs_implementation h' with heq | ⟨version, heq⟩
    · simp at heq
    · simp at heq

/-- No unit makes a directory where another one writes a file. -/
theorem Plain.files_dirs_disjoint (plain : w.Plain types) (tidy : w.Tidy)
    (htypes : TypesNamed types) (hne : unit ≠ other) (hunit : w.Suits unit)
    (hother : w.Suits other) (h : (w.foot types unit).files names) :
    ¬ (w.foot types other).dirs names := by
  intro h'
  have hname : unit.name = other.name := Option.some.inj ((head_files h).symm.trans (head_dirs h'))
  rcases tidy.rivals hne hunit hother hname with hrivals | hrivals
  · exact plain.files_dirs_rivals htypes hrivals h h'
  · exact files_types_dirs_rivals hrivals h h'

end Pairs

end Workplace

end Unbundle.Build
